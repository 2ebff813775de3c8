import ChunkDirectory.Proofs.Overlay.Settled

/-!
# Pauses

As long as no upkeep worker has to begin a round, a pause does nothing but move the clock
(`Does.pause`). The overlay after a pause is the same overlay, later.
-/

namespace ChunkDirectory

namespace Overlay

variable {ρ : Type} {s : NodeSet} {o : Overlay ρ} {id : NodeId} {n : Node} {slot : Slot}

/-- No upkeep worker begins a round up to a moment. -/
def QuietUntil (o : Overlay ρ) (moment : Nat) : Prop :=
  ∀ w ∈ o.workers, ∀ due, w.due = some due → moment < due

/-- The same overlay some nanoseconds later. -/
def later (o : Overlay ρ) (nanos : Nat) : Overlay ρ := { o with clock := o.clock + nanos }

@[simp] theorem later_zero : o.later 0 = o := rfl

@[simp] theorem later_later (a b : Nat) : (o.later a).later b = o.later (a + b) := by
  simp only [later, Nat.add_assoc]

@[simp] theorem read_later (nanos : Nat) : (o.later nanos).read id slot = o.read id slot := rfl

@[simp] theorem clock_later (nanos : Nat) : (o.later nanos).clock = o.clock + nanos := rfl

theorem Calm.later (h : o.Calm) (nanos : Nat) : (o.later nanos).Calm :=
  ⟨h.rules, h.queue, h.up, h.numbered⟩

theorem sameViews_later (nanos : Nat) : o.SameViews (o.later nanos) := fun _ => rfl

theorem Settled.later (h : o.Settled s) (nanos : Nat) : (o.later nanos).Settled s :=
  h.of_sameViews (h.toCalm.later nanos) (sameViews_later nanos)

namespace QuietUntil

variable {moment : Nat}

theorem mono {earlier : Nat} (h : o.QuietUntil moment) (hle : earlier ≤ moment) :
    o.QuietUntil earlier :=
  fun w hw due hdue => Nat.lt_of_le_of_lt hle (h w hw due hdue)

theorem later (h : o.QuietUntil moment) (nanos : Nat) : (o.later nanos).QuietUntil moment := h

theorem nextDue (h : o.QuietUntil moment) : o.nextDue moment = none := by
  have hnone : (o.workers.filterMap fun w => (w.due.filter (· ≤ moment)).map (·, w)) = [] := by
    rw [List.filterMap_eq_nil_iff]
    intro w hw
    cases hdue : w.due with
    | none => rfl
    | some due =>
      have hlt := h w hw due hdue
      rw [Option.filter_some, if_neg (by simpa using hlt)]
      rfl
  rw [Overlay.nextDue, hnone]
  rfl

end QuietUntil

/-- When nothing waits, nothing is flushed. -/
theorem Ends.flush (hqueue : o.queue = []) : Ends (fun fuel => Overlay.flush fuel) o () o [] := by
  refine Ends.succ (fun _ => by rw [Overlay.flush]) ?_
  refine Ends.look (fun _ _ => rfl) ?_
  rw [hqueue]
  exact Ends.pure

/-- A quiet pause moves the clock. -/
theorem Ends.wait {d : Duration} (hqueue : o.queue = []) (h : o.QuietUntil (o.clock + d.nanos)) :
    Ends (fun fuel => Overlay.wait fuel d) o () (o.later d.nanos) [] := by
  refine Ends.succ (fun _ => by rw [Overlay.wait]) ?_
  by_cases hpos : d.nanos > 0
  · let pass (o' : Overlay ρ) := { o' with clock := max o'.clock (o.clock + d.nanos) }
    have hlater : o.later d.nanos = pass o := by
      simp only [pass, later, Nat.max_eq_right (Nat.le_add_right o.clock d.nanos)]
    have hpass :
        Ends (fun fuel => passTime fuel (o.clock + d.nanos)) o () (o.later d.nanos) [] := by
      refine Ends.succ (fun _ => by rw [passTime]) ?_
      refine Ends.look (fun _ _ => rfl) ?_
      rw [h.nextDue, hlater]
      exact Ends.change (f := pass) fun _ => rfl
    simp only [hpos, if_true]
    refine (Ends.flush hqueue).silent_bind ?_
    exact Ends.look (fun _ _ => rfl) hpass
  · have hzero : d.nanos = 0 := Nat.eq_zero_of_not_pos hpos
    simp only [hpos, if_false]
    rw [hzero, later_zero]
    exact Ends.pure

/-- A node pauses. -/
theorem Does.pause {d : Duration} (hcalm : o.Calm) (hn : o.node? id = some n)
    (h : o.QuietUntil (o.clock + d.nanos)) :
    Does o id (Task.ask (.pause d)) () (o.later d.nanos) [] := by
  obtain ⟨member, hmember, hnode⟩ := node?_eq_some_iff.mp hn
  refine Does.ask (r := .pause d) (x := ()) hmember hnode ?_ rfl hnode
  refine Ends.succ (fun _ => by rw [answer]) ?_
  exact Ends.wait hcalm.queue h

end Overlay

end ChunkDirectory
