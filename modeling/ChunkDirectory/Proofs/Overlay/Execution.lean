import ChunkDirectory.Overlay.Run

/-!
# How tasks end

The runs of an overlay are given by functions with fuel. What a task does is said here without fuel,
in two relations.

`Ends part o a o' events` says that a part of a run, started in `o`, ends with `a` and `o'` whenever
it has enough fuel, and adds `events` to what has happened. It holds for every past, so a part that
is run with an empty record, as a message is, needs no rule of its own.

`Path i o p a o' events` follows the rest of a task on node `i` from one request to the next. It has
one rule for each constructor of `Progress`, and tasks are composed by `Path.bind`. The interpreter
agrees with it (`Path.ends`).
-/

namespace ChunkDirectory

namespace Overlay

variable {ρ α β : Type} {o o₁ o₂ : Overlay ρ} {i : Nat} {n n₁ : Node}
  {events events₁ : List (Event ρ)}

/-- With enough fuel the part ends with `a` and `o'`. The events it adds are listed latest first. -/
def Ends (part : Nat → Run ρ α) (o : Overlay ρ) (a : α) (o' : Overlay ρ)
    (events : List (Event ρ)) : Prop :=
  ∃ enough, ∀ fuel, enough ≤ fuel → ∀ past,
    part fuel { o with events := past } = some (a, { o' with events := events ++ past })

/-- The rest of a task on node `i` ends with `a` and `o'`. -/
inductive Path (i : Nat) :
    {α : Type} → Overlay ρ → Progress α → α → Overlay ρ → List (Event ρ) → Prop
  | done {α : Type} {o : Overlay ρ} {a : α} {n : Node} : Path i o (.done a n) a (o.keep i n) []
  | wait {α : Type} {o o₁ o₂ : Overlay ρ} {a : α} {n : Node} {r : Request} {x : r.Answer}
      {resume : r.Answer → Node → Progress α} {events₁ events₂ : List (Event ρ)} :
      Ends (fun fuel => answer fuel i n r) (o.keep i n) x o₁ events₁ →
      Path i o₁ (resume x (o₁.nodeAt i n)) a o₂ events₂ →
      Path i o (.wait n r resume) a o₂ (events₂ ++ events₁)
  | enter {α : Type} {o o₁ o₂ : Overlay ρ} {a : α} {n : Node} {r : Routine} {x : r.Result}
      {resume : r.Result → Node → Progress α} {events₁ events₂ : List (Event ρ)} :
      Path i o (r.task n) x o₁ events₁ →
      Path i o₁ (resume x (o₁.nodeAt i n)) a o₂ events₂ →
      Path i o (.enter n r resume) a o₂ (events₂ ++ events₁)

/-! ## Parts of a run -/

section Ends

variable {part : Nat → Run ρ α} {a : α} {b : β}

theorem Ends.pure : Ends (fun _ => (Pure.pure a : Run ρ α)) o a o [] :=
  ⟨0, fun _ _ _ => rfl⟩

/-- What takes one unit of fuel for itself. -/
theorem Ends.succ {inner : Nat → Run ρ α} (hsucc : ∀ fuel, part (fuel + 1) = inner fuel)
    (h : Ends inner o a o₁ events) : Ends part o a o₁ events := by
  obtain ⟨enough, hinner⟩ := h
  refine ⟨enough + 1, fun fuel hfuel past => ?_⟩
  obtain ⟨more, rfl⟩ := Nat.exists_eq_add_of_le hfuel
  rw [Nat.add_right_comm, hsucc]
  exact hinner _ (Nat.le_add_right _ _) past

theorem Ends.bind {rest : Nat → α → Run ρ β} (h : Ends part o a o₁ events)
    (hrest : Ends (fun fuel => rest fuel a) o₁ b o₂ events₁) :
    Ends (fun fuel => part fuel >>= rest fuel) o b o₂ (events₁ ++ events) := by
  obtain ⟨enough, hfirst⟩ := h
  obtain ⟨enough₁, hrest⟩ := hrest
  refine ⟨max enough enough₁, fun fuel hfuel past => ?_⟩
  have h₁ := hfirst fuel (by omega) past
  have h₂ := hrest fuel (by omega) (events ++ past)
  show (part fuel { o with events := past }).bind (fun x => rest fuel x.1 x.2) = _
  rw [h₁, List.append_assoc, ← h₂]
  rfl

/-- A part in which nothing happens, and what follows it. -/
theorem Ends.silent_bind {rest : Nat → α → Run ρ β} (h : Ends part o a o₁ [])
    (hrest : Ends (fun fuel => rest fuel a) o₁ b o₂ events) :
    Ends (fun fuel => part fuel >>= rest fuel) o b o₂ events := by
  have hboth := h.bind hrest
  rw [List.append_nil] at hboth
  exact hboth

/-- A part whose result is put into another form. -/
theorem Ends.map (f : α → β) (h : Ends part o a o₁ events) :
    Ends (fun fuel => do return f (← part fuel)) o (f a) o₁ events := by
  show Ends _ o (f a) o₁ ([] ++ events)
  exact Ends.bind h Ends.pure

/-- A change of the overlay that neither looks at the past nor touches it. -/
theorem Ends.change {f : Overlay ρ → Overlay ρ}
    (hf : ∀ past, f { o with events := past } = { f o with events := past }) :
    Ends (fun _ => (modify f : Run ρ PUnit)) o ⟨⟩ (f o) [] :=
  ⟨0, fun _ _ past => congrArg (fun o' => some (PUnit.unit, o')) (hf past)⟩

/-- A look at the overlay that does not see the past. -/
theorem Ends.look {rest : Nat → Overlay ρ → Run ρ α}
    (hpast : ∀ fuel past, rest fuel { o with events := past } = rest fuel o)
    (h : Ends (fun fuel => rest fuel o) o a o₁ events) :
    Ends (fun fuel => MonadState.get >>= rest fuel) o a o₁ events := by
  obtain ⟨enough, hrest⟩ := h
  refine ⟨enough, fun fuel hfuel past => ?_⟩
  show rest fuel { o with events := past } { o with events := past } = _
  rw [hpast]
  exact hrest fuel hfuel past

/-- A change of the overlay with a result, which neither looks at the past nor touches it. -/
theorem Ends.compute {γ : Type} {f : Overlay ρ → γ × Overlay ρ} {c : γ}
    {rest : Nat → γ → Run ρ α}
    (hf : ∀ past, f { o with events := past } = (c, { o₁ with events := past }))
    (h : Ends (fun fuel => rest fuel c) o₁ a o₂ events) :
    Ends (fun fuel => modifyGet f >>= rest fuel) o a o₂ events := by
  obtain ⟨enough, hrest⟩ := h
  refine ⟨enough, fun fuel hfuel past => ?_⟩
  show rest fuel (f { o with events := past }).1 (f { o with events := past }).2 = _
  rw [hf]
  exact hrest fuel hfuel past

end Ends

/-! ## Keeping states -/

@[simp] theorem keep_keep (o : Overlay ρ) (i : Nat) (n m : Node) :
    (o.keep i n).keep i m = o.keep i m := by
  simp [keep]

/-- Keeping the state a node has changes nothing. -/
theorem keep_of_getElem? (h : o.nodes[i]? = some n) : o.keep i n = o := by
  obtain ⟨hi, rfl⟩ := Array.getElem?_eq_some_iff.mp h
  simp [keep, Array.setIfInBounds, hi]

theorem getElem?_keep_self (h : i < o.nodes.size) : (o.keep i n).nodes[i]? = some n := by
  simp [keep, h]

theorem getElem?_keep_of_ne {j : Nat} (h : j ≠ i) : (o.keep i n).nodes[j]? = o.nodes[j]? := by
  simp [keep, Array.getElem?_setIfInBounds_ne h.symm]

theorem nodeAt_of_getElem? {m : Node} (h : o.nodes[i]? = some n) : o.nodeAt i m = n := by
  simp [nodeAt, h]

/-! ## Composition -/

/-- A task does not see the state that is recorded for its own node when it starts. -/
theorem Path.of_keep {p : Progress α} {a : α} (h : Path i (o.keep i n) p a o₁ events) :
    Path i o p a o₁ events := by
  generalize hO : o.keep i n = O at h
  induction h generalizing o n with
  | done =>
    subst hO
    rw [keep_keep]
    exact .done
  | wait hanswer hrest _ =>
    subst hO
    rw [keep_keep] at hanswer
    exact .wait hanswer hrest
  | enter _ hrest ih _ =>
    subst hO
    exact .enter (ih rfl) hrest

/-- A task that goes on with another one. -/
theorem Path.bind {p : Progress α} {f : α → Task β} {a : α} {b : β} (h : Path i o p a o₁ events)
    (hn : o₁.nodes[i]? = some n₁) (hrest : Path i o₁ (f a n₁) b o₂ events₁) :
    Path i o (p.bind f) b o₂ (events₁ ++ events) := by
  induction h with
  | done =>
    rename_i o _ n
    have hi : i < o.nodes.size := by
      have hlt := (Array.getElem?_eq_some_iff.mp hn).1
      simpa [keep] using hlt
    rw [getElem?_keep_self hi] at hn
    cases hn
    rw [List.append_nil]
    exact hrest.of_keep
  | wait hanswer _ ih =>
    rw [← List.append_assoc]
    exact .wait hanswer (ih hn hrest)
  | enter hfirst _ _ ih =>
    rw [← List.append_assoc]
    exact .enter hfirst (ih hn hrest)

/-- The interpreter follows the path. -/
theorem Path.ends {p : Progress α} {a : α} (h : Path i o p a o₁ events) :
    Ends (fun fuel => exec fuel i p) o a o₁ events := by
  induction h with
  | done =>
    refine Ends.succ (fun _ => by rw [exec]) ?_
    exact ⟨0, fun _ _ _ => rfl⟩
  | @wait _ _ _ _ _ n _ _ _ events₁ events₂ hanswer _ ih =>
    refine Ends.succ (fun _ => by rw [exec]) ?_
    rw [← List.append_nil (events₂ ++ events₁)]
    refine (Ends.change (f := (·.keep i n)) fun _ => rfl).bind (hanswer.bind ?_)
    exact Ends.look (fun _ _ => rfl) ih
  | enter _ _ hfirst hrest =>
    refine Ends.succ (fun _ => by rw [exec]) ?_
    exact hfirst.bind (Ends.look (fun _ _ => rfl) hrest)

end Overlay

end ChunkDirectory
