import ChunkDirectory.Proofs.Protocol.Tending

/-!
# Records of runs

Where a task ends is not all there is to say about a run: it also matters what was asked on the way,
what was answered, and in which state a routine was entered. `Progress.Follows p log a n` says that
the rest `p` of a task, undisturbed, can end with `a` and the node in state `n`, and that `log` lists
what happened, the earliest first. Without the record this is what `Progress.Yields` says
(`Progress.yields_iff`).

`Progress.Terminates` says that a task ends whatever is answered. A task that enters no routine does
(`Task.Keeps.terminates`), and its record shows none (`Task.Keeps.not_entered`).
-/

namespace ChunkDirectory

/-- What can be noted of a run. -/
inductive Occurrence where
  /-- A request was answered. -/
  | asked (request : Request) (answer : request.Answer)
  /-- A routine was entered in some state of the node. -/
  | entered (routine : Routine) (node : Node)

/-- What is entered after a part of a record without routines is entered in the rest. -/
theorem Occurrence.exists_rest {r : Routine} {m : Node} {first rest before after : List Occurrence}
    (hfirst : ∀ r m, .entered r m ∉ first) (h : first ++ rest = before ++ .entered r m :: after) :
    ∃ before', rest = before' ++ .entered r m :: after := by
  induction first generalizing before with
  | nil => exact ⟨before, h⟩
  | cons e first ih =>
    cases before with
    | nil =>
      obtain ⟨rfl, -⟩ := List.cons.inj h
      exact absurd List.mem_cons_self (hfirst r m)
    | cons e' before =>
      exact ih (fun r m hmem => hfirst r m (List.mem_cons_of_mem e hmem)) (List.cons.inj h).2

namespace Progress

/-- The rest of a task, undisturbed, can end with a result and the node in some state, with such a
record. -/
inductive Follows : {α : Type} → Progress α → List Occurrence → α → Node → Prop
  | done {α : Type} {a : α} {n : Node} : Follows (.done a n) [] a n
  | wait {α : Type} {log : List Occurrence} {a : α} {n n' : Node} {r : Request}
      {resume : r.Answer → Node → Progress α} (x : r.Answer) :
      Follows (resume x n) log a n' → Follows (.wait n r resume) (.asked r x :: log) a n'
  | enter {α : Type} {first rest : List Occurrence} {a : α} {n m n' : Node} {r : Routine}
      {x : r.Result} {resume : r.Result → Node → Progress α} :
      Follows (r.task n) first x m → Follows (resume x m) rest a n' →
      Follows (.enter n r resume) (.entered r n :: (first ++ rest)) a n'

variable {α β : Type} {log : List Occurrence} {a : α} {b : β} {n m n' : Node}

theorem follows_done {a' : α} :
    (Progress.done a n).Follows log a' n' ↔ log = [] ∧ a' = a ∧ n' = n := by
  constructor
  · intro h
    cases h
    exact ⟨rfl, rfl, rfl⟩
  · rintro ⟨rfl, rfl, rfl⟩
    exact .done

theorem follows_wait {r : Request} {resume : r.Answer → Node → Progress α} :
    (Progress.wait n r resume).Follows log a n' ↔
      ∃ x rest, log = .asked r x :: rest ∧ (resume x n).Follows rest a n' := by
  constructor
  · intro h
    cases h with
    | wait x hrest => exact ⟨x, _, rfl, hrest⟩
  · rintro ⟨x, rest, rfl, hrest⟩
    exact .wait x hrest

theorem follows_enter {r : Routine} {resume : r.Result → Node → Progress α} :
    (Progress.enter n r resume).Follows log a n' ↔
      ∃ x m first rest, log = .entered r n :: (first ++ rest) ∧ (r.task n).Follows first x m ∧
        (resume x m).Follows rest a n' := by
  constructor
  · intro h
    cases h with
    | enter hroutine hrest => exact ⟨_, _, _, _, rfl, hroutine, hrest⟩
  · rintro ⟨x, m, first, rest, rfl, hroutine, hrest⟩
    exact .enter hroutine hrest

/-- The record of a task that goes on with another one is that of both. -/
theorem follows_bind {p : Progress α} {f : α → Task β} :
    (p.bind f).Follows log b n' ↔
      ∃ a m first rest, log = first ++ rest ∧ p.Follows first a m ∧ (f a m).Follows rest b n' := by
  constructor
  · intro h
    induction p generalizing log with
    | done a n => exact ⟨a, n, [], log, rfl, .done, h⟩
    | wait n r resume ih =>
      obtain ⟨x, rest, rfl, hrest⟩ := follows_wait.mp h
      obtain ⟨a, m, first, rest, rfl, hfirst, hlast⟩ := ih x n hrest
      exact ⟨a, m, _, _, rfl, .wait x hfirst, hlast⟩
    | enter n r resume ih =>
      obtain ⟨x, m, inner, rest, rfl, hroutine, hrest⟩ := follows_enter.mp h
      obtain ⟨a, m', first, rest, rfl, hfirst, hlast⟩ := ih x m hrest
      refine ⟨a, m', _, rest, ?_, .enter hroutine hfirst, hlast⟩
      rw [List.cons_append, List.append_assoc]
  · rintro ⟨a, m, first, rest, rfl, hfirst, hlast⟩
    induction hfirst with
    | done => exact hlast
    | wait x _ ih => exact .wait x (ih hlast)
    | enter hroutine _ _ ih =>
      rw [List.cons_append, List.append_assoc]
      exact .enter hroutine (ih hlast)

theorem Follows.yields {p : Progress α} (h : p.Follows log a n') : p.Yields a n' := by
  induction h with
  | done => exact .done
  | wait x _ ih => exact .wait x ih
  | enter _ _ ih ih' => exact .enter ih ih'

/-- A task ends somewhere exactly if it does so with some record. -/
theorem yields_iff {p : Progress α} : p.Yields a n' ↔ ∃ log, p.Follows log a n' := by
  constructor
  · intro h
    induction h with
    | done => exact ⟨[], .done⟩
    | wait x _ ih =>
      obtain ⟨log, hlog⟩ := ih
      exact ⟨_, .wait x hlog⟩
    | enter _ _ ih ih' =>
      obtain ⟨first, hfirst⟩ := ih
      obtain ⟨rest, hrest⟩ := ih'
      exact ⟨_, .enter hfirst hrest⟩
  · rintro ⟨log, hlog⟩
    exact hlog.yields

theorem Follows.not_entered {p : Progress α} {P : Node → Prop} (h : p.Follows log a n')
    (hkeeps : p.Keeps (fun _ => False) P) (r : Routine) (m : Node) : .entered r m ∉ log := by
  induction h with
  | done => exact List.not_mem_nil
  | wait x _ ih =>
    intro hmem
    rcases List.mem_cons.mp hmem with heq | hmem
    · cases heq
    · exact ih (hkeeps x) hmem
  | enter => exact hkeeps.1.elim

/-! ## Tasks that end -/

/-- The rest of a task, undisturbed, comes to an end whatever is answered. -/
inductive Terminates : {α : Type} → Progress α → Prop
  | done {α : Type} {a : α} {n : Node} : Terminates (.done a n)
  | wait {α : Type} {n : Node} {r : Request} {resume : r.Answer → Node → Progress α} :
      (∀ x, Terminates (resume x n)) → Terminates (.wait n r resume)
  | enter {α : Type} {n : Node} {r : Routine} {resume : r.Result → Node → Progress α} :
      Terminates (r.task n) → (∀ x m, (r.task n).Yields x m → Terminates (resume x m)) →
      Terminates (.enter n r resume)

theorem Terminates.bind {p : Progress α} {f : α → Task β} (h : p.Terminates)
    (hf : ∀ a m, p.Yields a m → (f a m).Terminates) : (p.bind f).Terminates := by
  induction h with
  | done => exact hf _ _ .done
  | wait _ ih => exact .wait fun x => ih x fun a m hrest => hf a m (.wait x hrest)
  | enter hroutine _ _ ih =>
    exact .enter hroutine fun x m hm => ih x m hm fun a m' hrest => hf a m' (.enter hm hrest)

end Progress

namespace Task

open Progress

variable {α β : Type} {log : List Occurrence} {a : α} {b : β} {n n' : Node}

theorem follows_pure {a' : α} :
    ((pure a : Task α) n).Follows log a' n' ↔ log = [] ∧ a' = a ∧ n' = n := follows_done

theorem follows_bind {t : Task α} {f : α → Task β} :
    ((t >>= f) n).Follows log b n' ↔
      ∃ a m first rest, log = first ++ rest ∧ (t n).Follows first a m ∧
        (f a m).Follows rest b n' := Progress.follows_bind

theorem follows_node_bind {t : Node → Task β} :
    ((Task.node >>= t) n).Follows log b n' ↔ (t n n).Follows log b n' := Iff.rfl

theorem follows_modify_bind {f : Node → Node} {t : Unit → Task β} :
    ((Task.modify f >>= t) n).Follows log b n' ↔ (t () (f n)).Follows log b n' := Iff.rfl

theorem follows_ask_bind {r : Request} {t : r.Answer → Task β} :
    ((Task.ask r >>= t) n).Follows log b n' ↔
      ∃ x rest, log = .asked r x :: rest ∧ (t x n).Follows rest b n' := follows_wait

/-! ## Tasks without routines -/

variable {t : Task α} {P : Node → Prop}

/-- A task that enters no routine ends. -/
theorem Keeps.terminates (h : t.Keeps (fun _ => False) P) (hn : P n) : (t n).Terminates := by
  have hprogress : ∀ p : Progress α, p.Keeps (fun _ => False) P → p.Terminates := by
    intro p hp
    induction p with
    | done => exact .done
    | wait n r resume ih => exact .wait fun x => ih x n (hp x)
    | enter => exact hp.1.elim
  exact hprogress (t n) (h n hn)

/-- Where a task ends that enters no routine. -/
theorem Keeps.of_follows (h : t.Keeps (fun _ => False) P) (hn : P n)
    (hfollows : (t n).Follows log a n') : P n' :=
  Progress.Keeps.of_yields (fun _ hr => hr.elim) (h n hn) hfollows.yields

/-- A task that enters no routine has none in its record. -/
theorem Keeps.not_entered (h : t.Keeps (fun _ => False) P) (hn : P n)
    (hfollows : (t n).Follows log a n') (r : Routine) (m : Node) : .entered r m ∉ log :=
  hfollows.not_entered (h n hn) r m

end Task

end ChunkDirectory
