import ChunkDirectory.Proofs.Concurrency.Tame
import Mathlib.Data.List.FinRange
import Mathlib.Data.List.Perm.Basic

/-!
# Tasks that run undisturbed

What one node makes of a task, whatever its surroundings answer. `Progress.Yields p a n` says that
the rest `p` of a task can end with `a` and the node in state `n` when no other task runs on the
node meanwhile: it goes on from the state in which it waited, with any answer at all, and a routine
is gone through in the same way. Tasks are taken apart at `Progress.yields_bind`. Mutations change
directories only (`outlook_of_mutate`). A promotion that is passed on is offered to the known
superpeers in any order (`Protocol.yields_delegatePromotion`).
-/

namespace ChunkDirectory

namespace Progress

/-- The rest of a task, undisturbed, can end with a result and the node in some state. -/
inductive Yields : {α : Type} → Progress α → α → Node → Prop
  | done {α : Type} {a : α} {n : Node} : Yields (.done a n) a n
  | wait {α : Type} {a : α} {n n' : Node} {r : Request} {resume : r.Answer → Node → Progress α}
      (x : r.Answer) : Yields (resume x n) a n' → Yields (.wait n r resume) a n'
  | enter {α : Type} {a : α} {n m n' : Node} {r : Routine} {x : r.Result}
      {resume : r.Result → Node → Progress α} :
      Yields (r.task n) x m → Yields (resume x m) a n' → Yields (.enter n r resume) a n'

variable {α β : Type} {a : α} {b : β} {n m n' : Node}

theorem yields_done {a' : α} : (Progress.done a n).Yields a' n' ↔ a' = a ∧ n' = n := by
  constructor
  · rintro ⟨⟩
    exact ⟨rfl, rfl⟩
  · rintro ⟨rfl, rfl⟩
    exact .done

theorem yields_wait {r : Request} {resume : r.Answer → Node → Progress α} :
    (Progress.wait n r resume).Yields a n' ↔ ∃ x, (resume x n).Yields a n' := by
  constructor
  · intro h
    cases h with
    | wait x hrest => exact ⟨x, hrest⟩
  · rintro ⟨x, hrest⟩
    exact .wait x hrest

theorem yields_enter {r : Routine} {resume : r.Result → Node → Progress α} :
    (Progress.enter n r resume).Yields a n' ↔
      ∃ x m, (r.task n).Yields x m ∧ (resume x m).Yields a n' := by
  constructor
  · intro h
    cases h with
    | enter hroutine hrest => exact ⟨_, _, hroutine, hrest⟩
  · rintro ⟨x, m, hroutine, hrest⟩
    exact .enter hroutine hrest

/-- A task that goes on with another one ends where that one does. -/
theorem yields_bind {p : Progress α} {f : α → Task β} :
    (p.bind f).Yields b n' ↔ ∃ a m, p.Yields a m ∧ (f a m).Yields b n' := by
  constructor
  · intro h
    induction p with
    | done a n => exact ⟨a, n, .done, h⟩
    | wait n r resume ih =>
      obtain ⟨x, hrest⟩ := yields_wait.mp h
      obtain ⟨a, m, hfirst, hlast⟩ := ih x n hrest
      exact ⟨a, m, .wait x hfirst, hlast⟩
    | enter n r resume ih =>
      obtain ⟨x, m, hroutine, hrest⟩ := yields_enter.mp h
      obtain ⟨a, m', hfirst, hlast⟩ := ih x m hrest
      exact ⟨a, m', .enter hroutine hfirst, hlast⟩
  · rintro ⟨a, m, hfirst, hlast⟩
    induction hfirst with
    | done => exact hlast
    | wait x _ ih => exact .wait x (ih hlast)
    | enter hroutine _ _ ih => exact .enter hroutine (ih hlast)

end Progress

namespace Arrangement

variable {α : Type} {l l' : List α}

/-- A list keeps its elements, whichever order it is put in. -/
theorem perm_apply (a : Arrangement l.length) : a.apply.Perm l :=
  calc a.places.map l.get
    _ |>.Perm ((List.finRange l.length).map l.get) := a.complete.map l.get
    _ = l := List.map_get_finRange l

/-- A list can be put in every order of its elements. -/
theorem exists_apply_eq (h : l'.Perm l) : ∃ a : Arrangement l.length, a.apply = l' := by
  have hplaces : Relation.Comp (· = List.map l.get ·) List.Perm l' (List.finRange l.length) := by
    rw [List.eq_map_comp_perm]
    exact h.trans (.of_eq (List.map_get_finRange l).symm)
  obtain ⟨places, heq, hperm⟩ := hplaces
  exact ⟨⟨places, hperm⟩, heq.symm⟩

end Arrangement

namespace Task

open Progress

variable {α β : Type} {a : α} {b : β} {n n' : Node}

theorem yields_pure {a' : α} : ((pure a : Task α) n).Yields a' n' ↔ a' = a ∧ n' = n := yields_done

theorem yields_bind {t : Task α} {f : α → Task β} :
    ((t >>= f) n).Yields b n' ↔ ∃ a m, (t n).Yields a m ∧ (f a m).Yields b n' :=
  Progress.yields_bind

theorem yields_modify {f : Node → Node} : (Task.modify f n).Yields () n' ↔ n' = f n := by
  show (Progress.done () (f n)).Yields () n' ↔ _
  rw [yields_done, eq_self_iff_true, true_and]

/-- Anything may be answered to a request, and the node stays as it is. -/
theorem yields_ask {r : Request} {x : r.Answer} : (Task.ask r n).Yields x n' ↔ n' = n := by
  show (Progress.wait n r _).Yields x n' ↔ _
  rw [yields_wait]
  constructor
  · rintro ⟨y, hy⟩
    exact (yields_done.mp hy).2
  · rintro rfl
    exact ⟨x, .done⟩

theorem yields_spawnFailureHandling {failed : NodeId} :
    (Task.spawnFailureHandling failed n).Yields () n' ↔ n' = n.enqueue failed := by
  show ((Task.enqueue failed >>= fun _ => Task.spawn (.handleFailure failed)) n).Yields () n' ↔ _
  rw [yields_bind]
  constructor
  · rintro ⟨⟨⟩, m, hm, hlast⟩
    rw [yields_modify.mp hm] at hlast
    exact yields_ask.mp hlast
  · rintro rfl
    exact ⟨(), _, yields_modify.mpr rfl, yields_ask.mpr rfl⟩

theorem yields_choose {δ : Type} {l : List δ} {found : Option δ}
    (h : (Task.choose l n).Yields found n') : n' = n := by
  cases l with
  | nil => exact (yields_pure.mp h).2
  | cons a rest =>
    obtain ⟨x, m, hdraw, hlast⟩ := yields_bind.mp h
    rw [(yields_pure.mp hlast).2, yields_ask.mp hdraw]

/-- A list that is shuffled can come out in every order of its elements, and in no other. -/
theorem yields_shuffle {δ : Type} {l l' : List δ} :
    (Task.shuffle l n).Yields l' n' ↔ l'.Perm l ∧ n' = n := by
  unfold Task.shuffle
  split
  case isTrue hshort =>
    rw [yields_pure]
    refine and_congr_left fun _ => ⟨List.Perm.of_eq, fun hperm => ?_⟩
    match l, hshort with
    | [], _ => exact hperm.eq_nil
    | [a], _ => exact hperm.eq_singleton
  case isFalse =>
    rw [yields_bind]
    constructor
    · rintro ⟨a, m, hask, hlast⟩
      obtain ⟨rfl, rfl⟩ := yields_pure.mp hlast
      exact ⟨a.perm_apply, yields_ask.mp hask⟩
    · rintro ⟨hperm, rfl⟩
      obtain ⟨a, rfl⟩ := Arrangement.exists_apply_eq hperm
      exact ⟨a, _, yields_ask.mpr rfl, yields_pure.mpr ⟨rfl, rfl⟩⟩

end Task

/-! ## Mutations -/

namespace Node

variable {n n' : Node}

theorem core_enqueue (n : Node) (failed : NodeId) : (n.enqueue failed).core = n.core := by
  unfold enqueue
  split <;> rfl

theorem me_enqueue (n : Node) (failed : NodeId) : (n.enqueue failed).me = n.me :=
  congrArg (·.2.1.me) (n.core_enqueue failed)

theorem mem_failures_enqueue {x failed : NodeId} :
    x ∈ (n.enqueue failed).failures ↔ x ∈ n.failures ∨ x = failed := by
  unfold enqueue
  split
  case isTrue hmem => exact (or_iff_left_of_imp fun heq => heq ▸ hmem).symm
  case isFalse => exact List.mem_append.trans (or_congr_right List.mem_singleton)

theorem isSuperpeer_of_core (h : n'.core = n.core) : n'.isSuperpeer = n.isSuperpeer :=
  isSuperpeer_congr (congrArg (·.2.2) h)

theorem outlook_of_core (h : n'.core = n.core) : n'.outlook = n.outlook := by
  rw [outlook, outlook, isSuperpeer_of_core h]
  exact congrArg (fun c => (c.1, c.2.1, n.isSuperpeer)) h

end Node

variable {n n' : Node} {m : Mutation} {isBackup : Bool} {status : RequestStatus}

theorem core_of_copyTo {copy : Message} {backups : List NodeId}
    (h : (Protocol.copyTo copy backups n).Yields () n') : n'.core = n.core := by
  induction backups generalizing n with
  | nil => rw [(Progress.yields_done.mp h).2]
  | cons backup rest ih =>
    obtain ⟨reply, m, hcall, hrest⟩ := Task.yields_bind.mp h
    rw [Task.yields_ask.mp hcall] at hrest
    cases reply with
    | ok => exact ih hrest
    | error e =>
      obtain ⟨⟨⟩, m', hspawn, hlast⟩ := Task.yields_bind.mp hrest
      rw [Task.yields_spawnFailureHandling.mp hspawn] at hlast
      rw [ih hlast, Node.core_enqueue]

/-- Copies can be sent to all. -/
theorem yields_copyTo (copy : Message) (backups : List NodeId) (n : Node) :
    (Protocol.copyTo copy backups n).Yields () n := by
  induction backups with
  | nil => exact .done
  | cons backup rest ih => exact .wait (.ok .ack) ih

/-- A mutation is dealt with in some way. -/
theorem exists_yields_mutate (m : Mutation) (isBackup : Bool) (n : Node) :
    ∃ status n', (Protocol.mutate m isBackup n).Yields status n' := by
  cases hd : n.directory? with
  | none =>
    rw [mutate_of_peer m isBackup (by rw [Node.isSuperpeer, hd]; rfl)]
    exact ⟨_, _, .done⟩
  | some d =>
    rw [mutate_of_superpeer m isBackup hd]
    split
    · exact ⟨_, _, .done⟩
    split
    · split
      · exact ⟨_, _, Task.yields_bind.mpr ⟨(), _, yields_copyTo _ _ _, .done⟩⟩
      · exact ⟨_, _, .done⟩
    · exact ⟨_, _, .done⟩

/-- A mutation is applied or not. -/
theorem core_of_mutate (h : (Protocol.mutate m isBackup n).Yields status n') :
    n'.core = n.core ∨ n'.core = (n.mutate m).core := by
  cases hd : n.directory? with
  | none =>
    rw [mutate_of_peer m isBackup (by rw [Node.isSuperpeer, hd]; rfl)] at h
    exact .inl (by rw [(Progress.yields_done.mp h).2])
  | some d =>
    rw [mutate_of_superpeer m isBackup hd] at h
    split at h
    case isTrue => exact .inr (by rw [(Progress.yields_done.mp h).2])
    case isFalse =>
      split at h
      case isFalse => exact .inl (by rw [(Progress.yields_done.mp h).2])
      case isTrue =>
        split at h
        case isFalse => exact .inr (by rw [(Progress.yields_done.mp h).2])
        case isTrue =>
          obtain ⟨⟨⟩, m', hcopies, hlast⟩ := Task.yields_bind.mp h
          exact .inr (by rw [(Task.yields_pure.mp hlast).2, core_of_copyTo hcopies])

/-- Who handles a mutation keeps its view of the ring and its role. -/
theorem outlook_of_mutate (h : (Protocol.mutate m isBackup n).Yields status n') :
    n'.outlook = n.outlook := by
  rcases core_of_mutate h with hcore | hcore
  · exact Node.outlook_of_core hcore
  · exact (Node.outlook_of_core hcore).trans Node.outlook_mutate

/-! ## Promotions that are passed on -/

namespace Protocol

variable {n n' : Node} {hops : UInt16} {superpeers : List NodeId}

/-- Of the superpeers that are asked to go on with a promotion the first ones cannot be reached, and
are queued. -/
theorem yields_delegateTo : (delegateTo hops superpeers n).Yields () n' ↔
    ∃ tried, tried <+: superpeers ∧ n' = tried.foldl Node.enqueue n := by
  induction superpeers generalizing n with
  | nil =>
    show ((pure () : Task Unit) n).Yields () n' ↔ _
    simp [Task.yields_pure]
  | cons contact rest ih =>
    unfold delegateTo
    rw [Task.yields_bind]
    constructor
    · rintro ⟨sent, m, hsent, hlast⟩
      rw [Task.yields_ask.mp hsent] at hlast
      cases sent with
      | ok => exact ⟨[], List.nil_prefix, (Task.yields_pure.mp hlast).2⟩
      | error e =>
        obtain ⟨⟨⟩, m, hqueued, hrest⟩ := Task.yields_bind.mp hlast
        rw [Task.yields_modify.mp hqueued] at hrest
        obtain ⟨tried, hprefix, rfl⟩ := ih.mp hrest
        exact ⟨contact :: tried, (List.prefix_cons_inj contact).mpr hprefix, rfl⟩
    · rintro ⟨tried, hprefix, rfl⟩
      cases tried with
      | nil => exact ⟨.ok (), n, Task.yields_ask.mpr rfl, .done⟩
      | cons c tried =>
        obtain ⟨rfl, hrest⟩ := List.cons_prefix_cons.mp hprefix
        have hlast := ih.mpr ⟨tried, hrest, rfl⟩
        refine ⟨.error (.timeout c), n, Task.yields_ask.mpr rfl, ?_⟩
        exact Task.yields_bind.mpr ⟨(), n.enqueue c, Task.yields_modify.mpr rfl, hlast⟩

/-- To pass on a promotion leaves any of the known superpeers queued, in any order, and nothing else
is changed. -/
theorem yields_delegatePromotion : (delegatePromotion hops n).Yields () n' ↔
    ∃ tried : List NodeId, tried.Subperm n.ring.superpeers.toList ∧
      n' = tried.foldl Node.enqueue n := by
  show ((Task.shuffle n.ring.superpeers.toList >>= delegateTo hops) n).Yields () n' ↔ _
  rw [Task.yields_bind]
  constructor
  · rintro ⟨order, m, hshuffle, hrest⟩
    obtain ⟨hperm, rfl⟩ := Task.yields_shuffle.mp hshuffle
    obtain ⟨tried, hprefix, rfl⟩ := yields_delegateTo.mp hrest
    exact ⟨tried, hprefix.sublist.subperm.trans hperm.subperm, rfl⟩
  · -- Those that are queued are asked first, and the others after them.
    rintro ⟨tried, ⟨l, hperm, hsublist⟩, rfl⟩
    obtain ⟨rest, hrest⟩ := hsublist.exists_perm_append
    have horder : (tried ++ rest).Perm n.ring.superpeers.toList :=
      (hperm.symm.append_right rest).trans hrest.symm
    exact ⟨tried ++ rest, n, Task.yields_shuffle.mpr ⟨horder, rfl⟩,
      yields_delegateTo.mpr ⟨tried, List.prefix_append _ _, rfl⟩⟩

end Protocol

end ChunkDirectory
