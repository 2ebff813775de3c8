import ChunkDirectory.Proofs.Protocol.Record

/-!
# Runs among other tasks

While a task waits other tasks may run on the node. `Progress.Interleaves may p log a n` is
`Progress.Follows` with such changes in between, each as `may` allows; an undisturbed run is one in
which nothing changes (`Progress.Follows.interleaves`).

What can be said of a task in spite of that is `Task.Within asks hears through P`: it puts only such
requests, enters only such routines, and hands the node over with the property `P` whenever it waits
and when it ends, provided it hears only such answers and gets the node back with `P`. Such
statements compose, and they hold of every run if the changes in between keep `P`
(`Progress.Interleaves.within`).
-/

namespace ChunkDirectory

namespace Progress

/-- The rest of a task can end with a result and the node in some state, with such a record, while
others change the node as they may. -/
inductive Interleaves (may : Node → Node → Prop) :
    {α : Type} → Progress α → List Occurrence → α → Node → Prop
  | done {α : Type} {a : α} {n : Node} : Interleaves may (.done a n) [] a n
  | wait {α : Type} {log : List Occurrence} {a : α} {n m n' : Node} {r : Request}
      {resume : r.Answer → Node → Progress α} (x : r.Answer) (change : may n m) :
      Interleaves may (resume x m) log a n' →
      Interleaves may (.wait n r resume) (.asked r x :: log) a n'
  | enter {α : Type} {first rest : List Occurrence} {a : α} {n k m n' : Node} {r : Routine}
      {x : r.Result} {resume : r.Result → Node → Progress α} (change : may n k) :
      Interleaves may (r.task k) first x m → Interleaves may (resume x m) rest a n' →
      Interleaves may (.enter n r resume) (.entered r k :: (first ++ rest)) a n'

/-- Hearing only such answers, the rest of a task puts only such requests, enters only such
routines, and has the property whenever others may have the node. -/
def Within {α : Type} (asks : Request → Prop) (hears : (r : Request) → r.Answer → Prop)
    (through : Routine → Prop) (P : Node → Prop) : Progress α → Prop
  | .done _ n => P n
  | .wait n r resume =>
    P n ∧ asks r ∧ ∀ x m, hears r x → P m → (resume x m).Within asks hears through P
  | .enter n r resume =>
    P n ∧ through r ∧ ∀ x m, P m → (resume x m).Within asks hears through P

variable {α β : Type} {may : Node → Node → Prop} {log : List Occurrence} {a : α} {b : β}
  {n m n' : Node} {asks : Request → Prop} {hears : (r : Request) → r.Answer → Prop}
  {through : Routine → Prop} {P : Node → Prop}

theorem Follows.interleaves {p : Progress α} (h : p.Follows log a n') (hmay : ∀ n, may n n) :
    p.Interleaves may log a n' := by
  induction h with
  | done => exact .done
  | wait x _ ih => exact .wait x (hmay _) ih
  | enter _ _ ih ih' => exact .enter (hmay _) ih ih'

theorem interleaves_done {a' : α} :
    (Progress.done a n).Interleaves may log a' n' ↔ log = [] ∧ a' = a ∧ n' = n := by
  constructor
  · intro h
    cases h
    exact ⟨rfl, rfl, rfl⟩
  · rintro ⟨rfl, rfl, rfl⟩
    exact .done

theorem interleaves_wait {r : Request} {resume : r.Answer → Node → Progress α} :
    (Progress.wait n r resume).Interleaves may log a n' ↔
      ∃ x m rest, log = .asked r x :: rest ∧ may n m ∧ (resume x m).Interleaves may rest a n' := by
  constructor
  · intro h
    cases h with
    | wait x change hrest => exact ⟨x, _, _, rfl, change, hrest⟩
  · rintro ⟨x, m, rest, rfl, change, hrest⟩
    exact .wait x change hrest

theorem interleaves_enter {r : Routine} {resume : r.Result → Node → Progress α} :
    (Progress.enter n r resume).Interleaves may log a n' ↔
      ∃ k x m first rest, log = .entered r k :: (first ++ rest) ∧ may n k ∧
        (r.task k).Interleaves may first x m ∧ (resume x m).Interleaves may rest a n' := by
  constructor
  · intro h
    cases h with
    | enter change hroutine hrest => exact ⟨_, _, _, _, _, rfl, change, hroutine, hrest⟩
  · rintro ⟨k, x, m, first, rest, rfl, change, hroutine, hrest⟩
    exact .enter change hroutine hrest

/-- The record of a task that goes on with another one is that of both. -/
theorem interleaves_bind {p : Progress α} {f : α → Task β} :
    (p.bind f).Interleaves may log b n' ↔
      ∃ a m first rest, log = first ++ rest ∧ p.Interleaves may first a m ∧
        (f a m).Interleaves may rest b n' := by
  constructor
  · intro h
    induction p generalizing log with
    | done a n => exact ⟨a, n, [], log, rfl, .done, h⟩
    | wait n r resume ih =>
      obtain ⟨x, k, rest, rfl, change, hrest⟩ := interleaves_wait.mp h
      obtain ⟨a, m, first, rest, rfl, hfirst, hlast⟩ := ih x k hrest
      exact ⟨a, m, _, _, rfl, .wait x change hfirst, hlast⟩
    | enter n r resume ih =>
      obtain ⟨k, x, m, inner, rest, rfl, change, hroutine, hrest⟩ := interleaves_enter.mp h
      obtain ⟨a, m', first, rest, rfl, hfirst, hlast⟩ := ih x m hrest
      refine ⟨a, m', _, rest, ?_, .enter change hroutine hfirst, hlast⟩
      rw [List.cons_append, List.append_assoc]
  · rintro ⟨a, m, first, rest, rfl, hfirst, hlast⟩
    induction hfirst with
    | done => exact hlast
    | wait x change _ ih => exact .wait x change (ih hlast)
    | enter change hroutine _ _ ih =>
      rw [List.cons_append, List.append_assoc]
      exact .enter change hroutine (ih hlast)

/-! ## Tasks within bounds -/

theorem Within.bind {p : Progress α} {f : α → Task β} (h : p.Within asks hears through P)
    (hf : ∀ a n, P n → (f a n).Within asks hears through P) :
    (p.bind f).Within asks hears through P := by
  induction p with
  | done a n => exact hf a n h
  | wait n r resume ih => exact ⟨h.1, h.2.1, fun x m hx hm => ih x m (h.2.2 x m hx hm)⟩
  | enter n r resume ih => exact ⟨h.1, h.2.1, fun x m hm => ih x m (h.2.2 x m hm)⟩

theorem Within.mono {p : Progress α} {asks' : Request → Prop} (h : p.Within asks hears through P)
    (hasks : ∀ r, asks r → asks' r) : p.Within asks' hears through P := by
  induction p with
  | done => exact h
  | wait n r resume ih => exact ⟨h.1, hasks r h.2.1, fun x m hx hm => ih x m (h.2.2 x m hx hm)⟩
  | enter n r resume ih => exact ⟨h.1, h.2.1, fun x m hm => ih x m (h.2.2 x m hm)⟩

/-- If others keep the property, a run in which only such answers were heard ends with it, has put
only such requests, and has entered only such routines. -/
theorem Interleaves.within {p : Progress α} (h : p.Interleaves may log a n')
    (hp : p.Within asks hears through P) (hmay : ∀ n m, may n m → P n → P m)
    (hroutines : ∀ r, through r → ∀ n, P n → (r.task n).Within asks hears through P)
    (hheard : ∀ r x, .asked r x ∈ log → hears r x) :
    P n' ∧ (∀ r x, .asked r x ∈ log → asks r) ∧ ∀ r k, .entered r k ∈ log → through r ∧ P k := by
  induction h with
  | done =>
    exact ⟨hp, fun r x hmem => absurd hmem List.not_mem_nil,
      fun r k hmem => absurd hmem List.not_mem_nil⟩
  | wait x change _ ih =>
    obtain ⟨hn, hr, hrest⟩ := hp
    obtain ⟨hend, hasked, hentered⟩ :=
      ih (hrest x _ (hheard _ x List.mem_cons_self) (hmay _ _ change hn))
        fun r' x' hmem => hheard r' x' (List.mem_cons_of_mem _ hmem)
    refine ⟨hend, fun r' x' hmem => ?_, fun r' k hmem => ?_⟩
    · rcases List.mem_cons.mp hmem with heq | hmem
      · cases heq
        exact hr
      · exact hasked r' x' hmem
    · rcases List.mem_cons.mp hmem with heq | hmem
      · cases heq
      · exact hentered r' k hmem
  | enter change _ _ ih ih' =>
    obtain ⟨hn, hr, hrest⟩ := hp
    have hk := hmay _ _ change hn
    obtain ⟨hm, hasked, hentered⟩ := ih (hroutines _ hr _ hk) fun r' x' hmem =>
      hheard r' x' (List.mem_cons_of_mem _ (List.mem_append_left _ hmem))
    obtain ⟨hend, hasked', hentered'⟩ := ih' (hrest _ _ hm) fun r' x' hmem =>
      hheard r' x' (List.mem_cons_of_mem _ (List.mem_append_right _ hmem))
    refine ⟨hend, fun r' x' hmem => ?_, fun r' k' hmem => ?_⟩
    · rcases List.mem_cons.mp hmem with heq | hmem
      · cases heq
      · exact (List.mem_append.mp hmem).elim (hasked r' x') (hasked' r' x')
    · rcases List.mem_cons.mp hmem with heq | hmem
      · cases heq
        exact ⟨hr, hk⟩
      · exact (List.mem_append.mp hmem).elim (hentered r' k') (hentered' r' k')

end Progress

/-- The task keeps within such bounds wherever it starts with the property. -/
def Task.Within {α : Type} (asks : Request → Prop) (hears : (r : Request) → r.Answer → Prop)
    (through : Routine → Prop) (P : Node → Prop) (t : Task α) : Prop :=
  ∀ n, P n → (t n).Within asks hears through P

namespace Task

variable {α β : Type} {may : Node → Node → Prop} {log : List Occurrence} {a : α} {b : β}
  {n n' : Node} {asks : Request → Prop} {hears : (r : Request) → r.Answer → Prop}
  {through : Routine → Prop} {P : Node → Prop} {t : Task α}

theorem interleaves_pure {a' : α} :
    ((pure a : Task α) n).Interleaves may log a' n' ↔ log = [] ∧ a' = a ∧ n' = n :=
  Progress.interleaves_done

theorem interleaves_bind {f : α → Task β} :
    ((t >>= f) n).Interleaves may log b n' ↔
      ∃ a m first rest, log = first ++ rest ∧ (t n).Interleaves may first a m ∧
        (f a m).Interleaves may rest b n' := Progress.interleaves_bind

theorem interleaves_ask_bind {r : Request} {f : r.Answer → Task β} :
    ((Task.ask r >>= f) n).Interleaves may log b n' ↔
      ∃ x m rest, log = .asked r x :: rest ∧ may n m ∧ (f x m).Interleaves may rest b n' :=
  Progress.interleaves_wait

namespace Within

theorem pure (a : α) : (Pure.pure a : Task α).Within asks hears through P := fun _ h => h

theorem bind {f : α → Task β} (h : t.Within asks hears through P)
    (hf : ∀ a, (f a).Within asks hears through P) : (t >>= f).Within asks hears through P :=
  fun n hn => (h n hn).bind hf

theorem mono {asks' : Request → Prop} (h : t.Within asks hears through P)
    (hasks : ∀ r, asks r → asks' r) : t.Within asks' hears through P :=
  fun n hn => (h n hn).mono hasks

/-- Reading the node's state, of which the property holds. -/
theorem node_bind {f : Node → Task β} (hf : ∀ n, P n → (f n).Within asks hears through P) :
    (Task.node >>= f).Within asks hears through P := fun n hn => hf n hn n hn

theorem modify {change : Node → Node} (h : ∀ n, P n → P (change n)) :
    (Task.modify change).Within asks hears through P := fun n hn => h n hn

theorem ask {r : Request} (h : asks r) : (Task.ask r).Within asks hears through P :=
  fun _ hn => ⟨hn, h, fun _ _ _ hm => hm⟩

/-- Going on with an answer that may be heard. -/
theorem ask_bind {r : Request} {f : r.Answer → Task β} (h : asks r)
    (hf : ∀ x, hears r x → (f x).Within asks hears through P) :
    (Task.ask r >>= f).Within asks hears through P :=
  fun _ hn => ⟨hn, h, fun x m hx hm => hf x hx m hm⟩

theorem routine {r : Routine} (h : through r) : (Task.routine r).Within asks hears through P :=
  fun _ hn => ⟨hn, h, fun _ _ hm => hm⟩

theorem choose {δ : Type} (hdraw : asks .draw) (l : List δ) :
    (Task.choose l).Within asks hears through P := by
  cases l with
  | nil => exact .pure _
  | cons => exact (ask hdraw).bind fun _ => .pure _

theorem shuffle {δ : Type} (l : List δ) (hshuffle : asks (.shuffle l.length)) :
    (Task.shuffle l).Within asks hears through P := by
  unfold Task.shuffle
  split
  · exact .pure _
  · exact (ask hshuffle).bind fun _ => .pure _

end Within

end Task

end ChunkDirectory
