import ChunkDirectory.Proofs.Overlay.Calm
import ChunkDirectory.Protocol.Promotion

/-!
# What a task keeps to

`Progress.Obeys asks ends p` says what the rest `p` of a task keeps to in every surroundings: each
request it puts, with the state of the node in which it puts it, is one of `asks`, and each result,
with the state it leaves, is one of `ends`. Any answer may come, and while the task waits other
tasks may make anything of the node. A task that comes to an end on an overlay ends with such a
result (`Leads.of_obeys`).
-/

namespace ChunkDirectory

namespace Progress

/-- The task puts only such requests and ends only like this. What is asked inside a routine is up
to the routine. -/
def Obeys {α : Type} (asks : Node → Request → Prop) (ends : α → Node → Prop) : Progress α → Prop
  | .done a n => ends a n
  | .wait n r resume => asks n r ∧ ∀ x n', (resume x n').Obeys asks ends
  | .enter _ _ resume => ∀ x n', (resume x n').Obeys asks ends

variable {α β : Type} {asks asks' : Node → Request → Prop} {ends ends' : α → Node → Prop}
  {goal : β → Node → Prop} {p : Progress α} {f : α → Task β}

theorem Obeys.bind (h : p.Obeys asks ends) (hf : ∀ a n, ends a n → (f a n).Obeys asks goal) :
    (p.bind f).Obeys asks goal := by
  induction p with
  | done a n => exact hf a n h
  | wait n r resume ih => exact ⟨h.1, fun x n' => ih x n' (h.2 x n')⟩
  | enter n r resume ih => exact fun x n' => ih x n' (h x n')

theorem Obeys.mono (h : p.Obeys asks ends) (hasks : ∀ n r, asks n r → asks' n r)
    (hends : ∀ a n, ends a n → ends' a n) : p.Obeys asks' ends' := by
  induction p with
  | done a n => exact hends a n h
  | wait n r resume ih => exact ⟨hasks n r h.1, fun x n' => ih x n' (h.2 x n')⟩
  | enter n r resume ih => exact fun x n' => ih x n' (h x n')

end Progress

namespace Task

variable {asks : Node → Request → Prop} {n : Node}

/-- To choose only a number is drawn, and what is chosen is from the list. -/
theorem obeys_choose {δ : Type} (h : ∀ n, asks n .draw) (l : List δ) :
    (Task.choose l n).Obeys asks fun found _ => ∀ a, found = some a → a ∈ l := by
  cases l with
  | nil => exact fun a ha => by cases ha
  | cons b rest => exact ⟨h n, fun x _ a ha => List.mem_of_getElem? ha⟩

end Task

/-! ## Replacements -/

namespace Protocol

variable {asks : Node → Request → Prop} (hdraw : ∀ n, asks n .draw)
  (hsearch : ∀ n contact, asks n (.call contact .searchForPeer))

include hdraw hsearch

/-- The search among other superpeers draws and asks, and does not come back with the candidate. -/
theorem obeys_searchReplacement (candidate : NodeId) (superpeers : List NodeId) (tries : Nat)
    (n : Node) :
    (searchReplacement candidate superpeers tries n).Obeys asks
      fun found _ => found ≠ some candidate := by
  induction tries generalizing n with
  | zero => exact fun hfound => by cases hfound
  | succ tries ih =>
    refine (Task.obeys_choose hdraw superpeers).bind fun found n _ => ?_
    cases found with
    | none => exact fun hfound => by cases hfound
    | some contact =>
      refine ⟨hsearch n contact, fun reply n' => ?_⟩
      cases reply with
      | error e => exact ih _
      | ok reply =>
        cases reply with
        | foundPeer peer =>
          cases peer with
          | none => exact ih n'
          | some peer =>
            show ((if peer ≠ candidate then _ else _ : Task _) n').Obeys _ _
            by_cases hpeer : peer = candidate
            · rw [if_neg (not_not_intro hpeer)]
              exact ih n'
            · rw [if_pos hpeer]
              exact fun heq => hpeer (Option.some.inj heq)
        | _ => exact ih n'

/-- The candidate is not its own replacement. -/
theorem obeys_findReplacement (candidate : NodeId) (safe : Bool) (n : Node) :
    (findReplacement candidate safe n).Obeys asks fun found _ => found ≠ some candidate := by
  show Progress.Obeys _ _ (Progress.bind (Task.choose _ n) _)
  refine (Task.obeys_choose hdraw _).bind fun found n hfound => ?_
  cases found with
  | some peer =>
    have hpeer := of_decide_eq_true (List.mem_filter.mp (hfound peer rfl)).2
    exact fun heq => hpeer (Option.some.inj heq)
  | none =>
    cases safe with
    | false => exact fun hfound => by cases hfound
    | true => exact obeys_searchReplacement hdraw hsearch candidate _ _ n

end Protocol

/-! ## Ends on an overlay -/

namespace Overlay

variable {ρ α : Type} {o o₁ : Overlay ρ} {id : NodeId} {task : Task α} {a : α}
  {asks : Node → Request → Prop} {ends : α → Node → Prop}

theorem Path.of_obeys {i : Nat} {p : Progress α} {events : List (Event ρ)}
    (h : Path i o p a o₁ events) (hobeys : p.Obeys asks ends) : ∃ n, ends a n := by
  induction h with
  | done => exact ⟨_, hobeys⟩
  | wait _ _ ih => exact ih (hobeys.2 _ _)
  | enter _ _ _ ih => exact ih (hobeys _ _)

theorem Leads.of_obeys (h : Leads o id task a o₁) (hobeys : ∀ n, (task n).Obeys asks ends) :
    ∃ n, ends a n := by
  obtain ⟨events, member, n, -, -, hpath, -⟩ := h
  exact hpath.of_obeys (hobeys n)

end Overlay

end ChunkDirectory
