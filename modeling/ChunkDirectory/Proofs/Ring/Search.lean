import Mathlib.Data.List.Rotate
import ChunkDirectory.Proofs.Ring.Round

/-!
# Searching a list of identifiers

A set of identifiers is kept as one ascending list, so an identifier is found in it by halving. A
search ends at the identifier or at the place where it belongs (`Place`), and either way it splits
the list into what is below the identifier and what is above it (`search_split`). That the list
ascends is all this takes, and entering and leaving at the place that was found keeps it so.

What a view answers is defined by the round of a set, without places. The functions of this module
look at places only: one search and steps from there, modulo the length of the list. On an ascending
list they find the same.
-/

namespace ChunkDirectory

namespace Listing

variable {l : List NodeId} {id me : NodeId}

/-- Where a search ends. -/
inductive Place where
  /-- At the identifier. -/
  | found (index : Nat)
  /-- At the place where the identifier belongs. -/
  | absent (index : Nat)
deriving DecidableEq

def Place.index : Place → Nat
  | .found i => i
  | .absent i => i

/-- Searches the places from `low` on that are below `high`. -/
def searchBetween (l : List NodeId) (id : NodeId) (low high : Nat) (h : high ≤ l.length) : Place :=
  if hlow : low < high then
    let middle := low + (high - low) / 2
    have hmiddle : middle < l.length := by omega
    if l[middle] = id then .found middle
    else if l[middle] < id then searchBetween l id (middle + 1) high h
    else searchBetween l id low middle (Nat.le_of_lt hmiddle)
  else .absent low
termination_by high - low

/-- Searches a whole list. -/
def search (l : List NodeId) (id : NodeId) : Place :=
  searchBetween l id 0 l.length (Nat.le_refl _)

/-! ## What is found by one search -/

def contains (l : List NodeId) (id : NodeId) : Bool :=
  match search l id with
  | .found _ => true
  | .absent _ => false

/-- Enters an identifier where it belongs, unless it may not be listed. -/
def insert (me : NodeId) (l : List NodeId) (id : NodeId) : List NodeId :=
  if id = me || id.isReserved then l
  else
    match search l id with
    | .found _ => l
    | .absent i => l.insertIdx i id

def remove (l : List NodeId) (id : NodeId) : List NodeId :=
  match search l id with
  | .found i => l.eraseIdx i
  | .absent _ => l

/-- The one at the place that was found, or the first one if that place is behind the last one. -/
def responsible (l : List NodeId) (id : NodeId) : Option NodeId :=
  let index :=
    match search l id with
    | .found i => i
    | .absent i => if i = l.length then 0 else i
  l[index]?

/-- The one before the place that was found, or the last one if that place is the first. -/
def previousBefore (l : List NodeId) (id : NodeId) : Option NodeId :=
  let index := (search l id).index
  let candidate := if index = 0 then l.getLast? else l[index - 1]?
  candidate.filter (· ≠ id)

/-- All from the place that was found on, once around the list. -/
def successorsAfter (l : List NodeId) (id : NodeId) : List NodeId :=
  let start :=
    match search l id with
    | .found i => i + 1
    | .absent i => i
  ((List.range l.length).filterMap fun step => l[(start + step) % l.length]?).filter (· ≠ id)

/-! ## How a search splits a list -/

/-- A place splits a list into what is below the identifier and what is above it. -/
inductive Split (id : NodeId) : List NodeId → Place → Prop
  | found {before after : List NodeId} (hbefore : ∀ x ∈ before, x < id)
      (hafter : ∀ x ∈ after, id < x) : Split id (before ++ id :: after) (.found before.length)
  | absent {before after : List NodeId} (hbefore : ∀ x ∈ before, x < id)
      (hafter : ∀ x ∈ after, id < x) : Split id (before ++ after) (.absent before.length)

theorem getElem_lt_getElem (h : l.Pairwise (· < ·)) {i j : Nat} (hij : i < j) (hj : j < l.length) :
    l[i] < l[j] :=
  List.pairwise_iff_getElem.mp h i j (Nat.lt_trans hij hj) hj hij

/-- Where an identifier stands in an ascending list, it splits the list. -/
theorem Split.of_getElem (h : l.Pairwise (· < ·)) {i : Nat} (hi : i < l.length) (heq : l[i] = id) :
    Split id l (.found i) := by
  have hlist : l = l.take i ++ id :: l.drop (i + 1) := by
    rw [← heq, List.getElem_cons_drop, List.take_append_drop]
  have hlength : (l.take i).length = i := List.length_take_of_le (Nat.le_of_lt hi)
  have hasc := h
  rw [hlist] at hasc
  obtain ⟨-, hrest, hcross⟩ := List.pairwise_append.mp hasc
  have hsplit : Split id (l.take i ++ id :: l.drop (i + 1)) (.found (l.take i).length) :=
    .found (fun x hx => hcross x hx id List.mem_cons_self) (List.pairwise_cons.mp hrest).1
  rwa [← hlist, hlength] at hsplit

/-- What was not looked at any more lies on the right side: below `low` all is below the identifier,
from `high` on all is above it. -/
theorem searchBetween_split (h : l.Pairwise (· < ·)) (low high : Nat) (hhigh : high ≤ l.length)
    (hle : low ≤ high) (hbefore : ∀ i (hi : i < l.length), i < low → l[i] < id)
    (hafter : ∀ i (hi : i < l.length), high ≤ i → id < l[i]) :
    Split id l (searchBetween l id low high hhigh) := by
  fun_induction searchBetween l id low high hhigh with
  | case1 low high hhigh hlow middle hmiddle heq => exact .of_getElem h hmiddle heq
  | case2 low high hhigh hlow middle hmiddle hne hlt ih =>
    refine ih (by omega) (fun i hi himiddle => ?_) hafter
    rcases Nat.lt_or_eq_of_le (Nat.le_of_lt_succ himiddle) with himiddle | rfl
    · exact NodeId.lt_trans (getElem_lt_getElem h himiddle hmiddle) hlt
    · exact hlt
  | case3 low high hhigh hlow middle hmiddle hne hge ih =>
    have hgt : id < l[middle] := (NodeId.lt_or_gt_of_ne hne).resolve_left hge
    refine ih (by omega) hbefore fun i hi himiddle => ?_
    rcases Nat.lt_or_eq_of_le himiddle with himiddle | rfl
    · exact NodeId.lt_trans hgt (getElem_lt_getElem h himiddle hi)
    · exact hgt
  | case4 low high hhigh hdone =>
    obtain rfl : low = high := by omega
    have hlength : (l.take low).length = low := List.length_take_of_le hhigh
    have hsplit : Split id (l.take low ++ l.drop low) (.absent (l.take low).length) := by
      refine .absent (fun x hx => ?_) (fun x hx => ?_)
      · obtain ⟨i, hi, rfl⟩ := List.mem_take_iff_getElem.mp hx
        exact hbefore i (by omega) (by omega)
      · obtain ⟨i, hi, rfl⟩ := List.mem_drop_iff_getElem.mp hx
        exact hafter (low + i) (by omega) (Nat.le_add_right low i)
    rwa [List.take_append_drop, hlength] at hsplit

/-- A search splits an ascending list where it ends. -/
theorem search_split (h : l.Pairwise (· < ·)) (id : NodeId) : Split id l (search l id) :=
  searchBetween_split h 0 l.length (Nat.le_refl _) (Nat.zero_le _) (fun i _ hi => by omega)
    fun i hi hlength => by omega

variable {before after : List NodeId}

/-! ## What is found is what the round says -/

/-- The round of a list that an identifier splits. -/
theorem round_append {rest : List NodeId} (hbefore : ∀ x ∈ before, x < id)
    (hrest : ∀ x ∈ rest, id ≤ x) :
    (before ++ rest).filter (id ≤ ·) ++ (before ++ rest).filter (· < id) = rest ++ before := by
  have hupper : (before ++ rest).filter (id ≤ ·) = rest := by
    rw [List.filter_append, List.filter_eq_nil_iff.mpr, List.nil_append, List.filter_eq_self]
    · exact fun x hx => decide_eq_true (hrest x hx)
    · intro x hx hle
      exact NodeId.not_lt.mpr (of_decide_eq_true hle) (hbefore x hx)
  have hlower : (before ++ rest).filter (· < id) = before := by
    rw [List.filter_append, List.filter_eq_self.mpr, List.filter_eq_nil_iff.mpr, List.append_nil]
    · intro x hx hlt
      exact NodeId.not_lt.mpr (hrest x hx) (of_decide_eq_true hlt)
    · exact fun x hx => decide_eq_true (hbefore x hx)
  rw [hupper, hlower]

theorem le_of_mem_cons (hafter : ∀ x ∈ after, id < x) : ∀ x ∈ id :: after, id ≤ x := by
  intro x hx
  rcases List.mem_cons.mp hx with rfl | hx
  · exact Nat.le_refl x.toNat
  · exact Nat.le_of_lt (hafter x hx)

theorem not_mem_of_split (hbefore : ∀ x ∈ before, x < id) (hafter : ∀ x ∈ after, id < x) :
    id ∉ before ∧ id ∉ after :=
  ⟨fun h => NodeId.lt_irrefl id (hbefore id h), fun h => NodeId.lt_irrefl id (hafter id h)⟩

/-- Taking out what is not there. -/
theorem filter_ne_of_not_mem (h : id ∉ l) : l.filter (· ≠ id) = l :=
  List.filter_eq_self.mpr fun _ hx => decide_eq_true fun heq => h (heq ▸ hx)

theorem contains_iff (h : l.Pairwise (· < ·)) : contains l id = true ↔ id ∈ l := by
  have hsplit := search_split h id
  unfold contains
  generalize search l id = place at hsplit
  cases hsplit with
  | found hbefore hafter => simp
  | absent hbefore hafter => simp [not_mem_of_split hbefore hafter]

theorem insertIdx_length_append (before after : List NodeId) (id : NodeId) :
    (before ++ after).insertIdx before.length id = before ++ id :: after := by
  induction before with
  | nil => rfl
  | cons x rest ih => exact congrArg (x :: ·) ih

/-- What is below the identifier is passed. -/
theorem insertId_append (hbefore : ∀ x ∈ before, x < id) (rest : List NodeId) :
    NodeSet.insertId id (before ++ rest) = before ++ NodeSet.insertId id rest := by
  induction before with
  | nil => rfl
  | cons x more ih =>
    have hx := hbefore x List.mem_cons_self
    have hnot : ¬ id < x := NodeId.not_lt.mpr (Nat.le_of_lt hx)
    rw [List.cons_append, NodeSet.insertId, if_neg hnot, if_neg (NodeId.ne_of_lt hx).symm,
      ih fun y hy => hbefore y (List.mem_cons_of_mem x hy), List.cons_append]

theorem insertId_cons_self (id : NodeId) (after : List NodeId) :
    NodeSet.insertId id (id :: after) = id :: after := by
  rw [NodeSet.insertId, if_neg (NodeId.lt_irrefl id), if_pos rfl]

theorem insertId_of_above (hafter : ∀ x ∈ after, id < x) :
    NodeSet.insertId id after = id :: after := by
  cases after with
  | nil => rfl
  | cons x rest => rw [NodeSet.insertId, if_pos (hafter x List.mem_cons_self)]

theorem insert_eq (h : l.Pairwise (· < ·)) :
    insert me l id = if id = me || id.isReserved then l else NodeSet.insertId id l := by
  have hsplit := search_split h id
  unfold insert
  generalize search l id = place at hsplit
  cases hsplit with
  | @found before after hbefore hafter => rw [insertId_append hbefore, insertId_cons_self]
  | @absent before after hbefore hafter =>
    rw [insertId_append hbefore, insertId_of_above hafter, ← insertIdx_length_append]

theorem remove_eq (h : l.Pairwise (· < ·)) : remove l id = l.filter (· ≠ id) := by
  have hsplit := search_split h id
  unfold remove
  generalize search l id = place at hsplit
  cases hsplit with
  | found hbefore hafter =>
    obtain ⟨hnb, hna⟩ := not_mem_of_split hbefore hafter
    rw [List.filter_append, List.filter_cons_of_neg (by simp), filter_ne_of_not_mem hnb,
      filter_ne_of_not_mem hna]
    simp [List.eraseIdx_append_of_length_le]
  | absent hbefore hafter =>
    obtain ⟨hnb, hna⟩ := not_mem_of_split hbefore hafter
    rw [filter_ne_of_not_mem]
    simp [hnb, hna]

theorem responsible_eq (h : l.Pairwise (· < ·)) :
    responsible l id = (l.filter (id ≤ ·) ++ l.filter (· < id)).head? := by
  have hsplit := search_split h id
  unfold responsible
  generalize search l id = place at hsplit
  cases hsplit with
  | found hbefore hafter =>
    rw [round_append hbefore (le_of_mem_cons hafter)]
    simp
  | @absent before after hbefore hafter =>
    rw [round_append hbefore fun x hx => Nat.le_of_lt (hafter x hx)]
    cases after with
    | nil => simp [List.head?_eq_getElem?]
    | cons x rest => simp

/-- The one before a place is the last one of the round that starts there. -/
theorem candidate_append (before rest : List NodeId) :
    (if before.length = 0 then (before ++ rest).getLast?
      else (before ++ rest)[before.length - 1]?) = (rest ++ before).getLast? := by
  cases before with
  | nil => simp
  | cons x more =>
    rw [if_neg (by simp), List.getElem?_append_left (by simp), ← List.getLast?_eq_getElem?,
      List.getLast?_append, List.getLast?_eq_some_getLast (List.cons_ne_nil x more), Option.some_or]

theorem previousBefore_eq (h : l.Pairwise (· < ·)) :
    previousBefore l id =
      (l.filter (id ≤ ·) ++ l.filter (· < id)).getLast?.filter (· ≠ id) := by
  have hsplit := search_split h id
  unfold previousBefore
  generalize search l id = place at hsplit
  cases hsplit with
  | @found before after hbefore hafter =>
    rw [round_append hbefore (le_of_mem_cons hafter)]
    exact congrArg (Option.filter (· ≠ id)) (candidate_append before (id :: after))
  | @absent before after hbefore hafter =>
    rw [round_append hbefore fun x hx => Nat.le_of_lt (hafter x hx)]
    exact congrArg (Option.filter (· ≠ id)) (candidate_append before after)

theorem filterMap_range_getElem? (l : List NodeId) :
    (List.range l.length).filterMap (l[·]?) = l := by
  induction l with
  | nil => rfl
  | cons x rest ih =>
    rw [List.length_cons, List.range_succ_eq_map, List.filterMap_cons, List.getElem?_cons_zero,
      List.filterMap_map]
    exact congrArg (x :: ·) ih

/-- Steps modulo the length go once around the list. -/
theorem filterMap_range_rotate (l : List NodeId) (start : Nat) :
    (List.range l.length).filterMap (fun step => l[(start + step) % l.length]?) =
      l.rotate start := by
  conv_rhs => rw [← filterMap_range_getElem? (l.rotate start), List.length_rotate]
  refine List.filterMap_congr fun step hstep => ?_
  rw [List.getElem?_rotate (List.mem_range.mp hstep), Nat.add_comm]

theorem successorsAfter_eq (h : l.Pairwise (· < ·)) :
    successorsAfter l id = (l.filter (id ≤ ·) ++ l.filter (· < id)).filter (· ≠ id) := by
  have hsplit := search_split h id
  unfold successorsAfter
  generalize search l id = place at hsplit
  cases hsplit with
  | @found before after hbefore hafter =>
    -- One step further, the identifier itself comes last.
    have hstart : before ++ id :: after = (before ++ [id]) ++ after := by simp
    have hrotate :
        (before ++ id :: after).rotate (before.length + 1) = after ++ (before ++ [id]) := by
      rw [hstart, ← List.rotate_append_length_eq (before ++ [id]) after]
      simp
    rw [round_append hbefore (le_of_mem_cons hafter)]
    dsimp only
    rw [filterMap_range_rotate, hrotate]
    simp
  | absent hbefore hafter =>
    rw [round_append hbefore fun x hx => Nat.le_of_lt (hafter x hx)]
    dsimp only
    rw [filterMap_range_rotate, List.rotate_append_length_eq]

end Listing

/-! ## Views -/

namespace Ring

variable {r : Ring} {id : NodeId}

/-- What a view answers about an identifier is found by one search of its lists. -/
structure Searches (r : Ring) (id : NodeId) : Prop where
  superpeer : r.superpeers.contains id = Listing.contains r.superpeers.toList id
  peer : r.peers.contains id = Listing.contains r.peers.toList id
  responsible : r.responsible id = Listing.responsible r.superpeers.toList id
  previous : r.previousBefore id = Listing.previousBefore r.superpeers.toList id
  successors : r.successorsAfter id = Listing.successorsAfter r.superpeers.toList id

theorem contains_eq_search (s : NodeSet) (id : NodeId) :
    s.contains id = Listing.contains s.toList id := by
  rw [Bool.eq_iff_iff, Listing.contains_iff s.ascending, NodeSet.contains, decide_eq_true_iff]
  exact Iff.rfl

theorem searches (r : Ring) (id : NodeId) : r.Searches id where
  superpeer := contains_eq_search r.superpeers id
  peer := contains_eq_search r.peers id
  responsible := (Listing.responsible_eq r.superpeers.ascending).symm
  previous := (Listing.previousBefore_eq r.superpeers.ascending).symm
  successors := (Listing.successorsAfter_eq r.superpeers.ascending).symm

end Ring

end ChunkDirectory
