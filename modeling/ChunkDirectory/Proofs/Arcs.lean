import Mathlib.Algebra.Group.Fin.Basic
import Mathlib.Order.Fin.Basic
import ChunkDirectory.Proofs.Ring.Exact

/-!
# Arcs and the way along them

Whether an arc holds an identifier is decided by two distances. What it means is a walk: one goes
from the lower end to the upper end, one position at a time and from the largest position on to 0,
and sees whether the identifier is met where the arc includes it (`Arc.walk`). The two agree for all
ends and identifiers (`Arc.walk_eq_contains`).

Points that are met one after the other on one turn of the ring (`InTurn`) cut it into the arcs from
each point to the next one. Such an arc, without its lower end, holds what its upper end owns
(`contains_iff_owns`), and since each identifier has one owner, it lies in one of them
(`arcs_walked_and_parted`).
-/

namespace ChunkDirectory

open NodeId

namespace Arc

variable {arc : Arc} {id here : NodeId}

/-! ## The walk -/

/-- Whether the arc includes a position on its way. -/
def includes (arc : Arc) (position : NodeId) : Bool :=
  match arc.ends with
  | .closed => true
  | .upperClosed => position ≠ arc.start
  | .strict => position ≠ arc.start && position ≠ arc.stop

/-- Goes on from a position on the way, up to `id` or the upper end. -/
def walkFrom (arc : Arc) (id here : NodeId) : Bool :=
  if here = id then arc.includes here
  else if here = arc.stop then false
  else arc.walkFrom id (here.forward 1)
termination_by here.clockwise arc.stop
decreasing_by
  have hstop : here ≠ arc.stop := ‹_›
  have hpos := clockwise_pos hstop
  rw [clockwise_forward, if_neg (Ne.symm hstop)]
  omega

/-- Walks along the arc. With equal ends there is no way to go, and it is agreed what the arc is:
that point, the whole ring or nothing. -/
def walk (arc : Arc) (id : NodeId) : Bool :=
  if arc.start = arc.stop then
    match arc.ends with
    | .closed => id = arc.start
    | .upperClosed => true
    | .strict => false
  else arc.walkFrom id arc.start

/-- From each position, what is met is what is not farther away than the upper end. -/
theorem walkFrom_eq_true_iff :
    arc.walkFrom id here = true ↔
      clockwise here id ≤ clockwise here arc.stop ∧ arc.includes id = true := by
  fun_induction walkFrom arc id here with
  | case1 => rw [clockwise_self]; simp
  | case2 hid =>
    have hpos := clockwise_pos hid
    rw [clockwise_self]
    simp only [Bool.false_eq_true, false_iff, not_and]
    omega
  | case3 here hid hstop ih =>
    -- One step brings both the identifier and the upper end one position nearer.
    have hpos := clockwise_pos hid
    have hpos' := clockwise_pos hstop
    rw [ih, clockwise_forward, clockwise_forward, if_neg (Ne.symm hid), if_neg (Ne.symm hstop)]
    exact and_congr_left fun _ => by omega

/-- The two distances decide the outcome of the walk. -/
theorem walk_eq_contains (arc : Arc) (id : NodeId) : arc.walk id = arc.contains id := by
  unfold walk contains
  split
  case isTrue => rfl
  case isFalse hends =>
    rw [Bool.eq_iff_iff, walkFrom_eq_true_iff]
    have hstart : id ≠ arc.start ↔ clockwise arc.start id ≠ 0 :=
      not_congr (eq_comm.trans clockwise_eq_zero_iff.symm)
    have hstop : id ≠ arc.stop ↔ clockwise arc.start id ≠ clockwise arc.start arc.stop :=
      not_congr ⟨fun heq => by rw [heq], eq_of_clockwise_from⟩
    cases hkind : arc.ends with
    | closed => simp [includes, hkind]
    | upperClosed => simp [includes, hkind, hstart, and_comm]
    | strict =>
      simp only [includes, hkind, Bool.and_eq_true, decide_eq_true_eq, hstart, hstop]
      omega

end Arc

/-! ## Points in turn -/

variable {n : Nat} {p : Fin (n + 1) → NodeId} {x : NodeId}

/-- From the first point on, the points are met one after the other on one turn of the ring. -/
def InTurn (p : Fin (n + 1) → NodeId) : Prop :=
  StrictMono fun i => clockwise (p 0) (p i)

/-- The points as a set. -/
def pointSet (p : Fin (n + 1) → NodeId) : NodeSet := .ofList (List.ofFn p)

theorem mem_pointSet : x ∈ pointSet p ↔ ∃ i, p i = x := by
  rw [pointSet, NodeSet.mem_ofList, List.mem_ofFn]

namespace InTurn

theorem injective (h : InTurn p) : Function.Injective p := fun _ _ heq =>
  StrictMono.injective h (congrArg (clockwise (p 0)) heq)

/-- Seen from the first point, a later one is farther away. -/
theorem dist_lt (h : InTurn p) {i j : Fin (n + 1)} (hij : i.val < j.val) :
    clockwise (p 0) (p i) < clockwise (p 0) (p j) :=
  h (Fin.lt_def.mpr hij)

/-- No other point is nearer before the next one. The one after the last point is the first. -/
theorem dist_next_le (h : InTurn p) {i j : Fin (n + 1)} (hj : j ≠ i + 1) :
    clockwise (p i) (p (i + 1)) ≤ clockwise (p j) (p (i + 1)) := by
  have hnext : (i + 1).val = if i = Fin.last n then 0 else i.val + 1 := Fin.val_add_one i
  have hne : j.val ≠ (i + 1).val := fun heq => hj (Fin.ext heq)
  have haddi := clockwise_add (p 0) (p i) (p (i + 1))
  have haddj := clockwise_add (p 0) (p j) (p (i + 1))
  have hlti := clockwise_lt (p i) (p (i + 1))
  have hltj := clockwise_lt (p j) (p (i + 1))
  by_cases hlast : i = Fin.last n
  · -- From the last point it is the rest of the turn, and from those before it more.
    rw [if_pos hlast] at hnext
    have hfirst : clockwise (p 0) (p (i + 1)) = 0 := by
      rw [show i + 1 = 0 from Fin.ext hnext, clockwise_self]
    have hi : i.val = n := congrArg Fin.val hlast
    have hj0 : (0 : Fin (n + 1)).val < j.val := Nat.pos_of_ne_zero (hnext ▸ hne)
    have hpos := h.dist_lt hj0
    rcases Nat.lt_or_eq_of_le (show j.val ≤ i.val by omega) with hlt | heq
    · have hbelow := h.dist_lt hlt
      omega
    · rw [Fin.ext heq]
  · rw [if_neg hlast] at hnext
    have hstep := h.dist_lt (show i.val < (i + 1).val by omega)
    rcases Nat.lt_trichotomy j.val i.val with hlt | heq | hlt
    · have hbelow := h.dist_lt hlt
      omega
    · rw [Fin.ext heq]
    · have hbeyond := h.dist_lt (show (i + 1).val < j.val by omega)
      have hturn := clockwise_lt (p 0) (p j)
      omega

/-- Each point is the nearest one before the next. -/
theorem before (h : InTurn p) (hn : n ≠ 0) (i : Fin (n + 1)) :
    (pointSet p).Before (p (i + 1)) (p i) := by
  have hne : i ≠ i + 1 := by
    intro heq
    have hval := congrArg Fin.val heq
    rw [Fin.val_add_one] at hval
    split at hval
    case isTrue hlast => exact hn ((congrArg Fin.val hlast).symm.trans hval)
    case isFalse => omega
  refine ⟨mem_pointSet.mpr ⟨i, rfl⟩, fun heq => hne (h.injective heq), fun y hy hyne => ?_⟩
  obtain ⟨j, rfl⟩ := mem_pointSet.mp hy
  exact h.dist_next_le fun heq => hyne (congrArg p heq)

/-- What lies on the arc from a point to the next is what the next one owns. -/
theorem contains_iff_owns (h : InTurn p) (i : Fin (n + 1)) :
    Arc.contains ⟨p i, p (i + 1), .upperClosed⟩ x = true ↔ (pointSet p).Owns x (p (i + 1)) := by
  have hmem : p (i + 1) ∈ pointSet p := mem_pointSet.mpr ⟨i + 1, rfl⟩
  by_cases hn : n = 0
  · subst hn
    have hall : ∀ j, p j = p (i + 1) := fun j =>
      congrArg p (Subsingleton.elim (α := Fin 1) j (i + 1))
    rw [hall i]
    refine iff_of_true (Arc.mem_upperClosed_self _ x) ⟨hmem, fun y hy => ?_⟩
    obtain ⟨j, rfl⟩ := mem_pointSet.mp hy
    exact Nat.le_of_eq (by rw [hall j])
  · have hbefore := h.before hn i
    rw [Arc.mem_upperClosed_iff hbefore.2.1, NodeSet.owns_iff_of_before hmem hbefore]

/-- Points in turn cut the ring. -/
theorem existsUnique_arc (h : InTurn p) (id : NodeId) :
    ∃! i, Arc.contains ⟨p i, p (i + 1), .upperClosed⟩ id = true := by
  obtain ⟨owner, howner⟩ := NodeSet.exists_owner (mem_pointSet.mpr ⟨0, rfl⟩ : p 0 ∈ pointSet p) id
  obtain ⟨j, rfl⟩ := mem_pointSet.mp howner.1
  have hj : j - 1 + 1 = j := sub_add_cancel j 1
  refine ⟨j - 1, (h.contains_iff_owns (j - 1)).mpr (by rwa [hj]), fun i hi => ?_⟩
  have heq := h.injective (((h.contains_iff_owns i).mp hi).unique howner)
  rw [← heq, add_sub_cancel_right]

end InTurn

/-- An arc holds what one meets on the walk along it at a position it includes, whatever its ends
and its kind are. Points in turn cut the ring into the arcs from each to the next, without their lower
ends: each identifier lies in exactly one of them. A single point has the whole ring as its arc. -/
theorem arcs_walked_and_parted :
    (∀ (arc : Arc) (id : NodeId), arc.contains id = arc.walk id) ∧
      ∀ (n : Nat) (p : Fin (n + 1) → NodeId), InTurn p → ∀ id,
        ∃! i, Arc.contains ⟨p i, p (i + 1), .upperClosed⟩ id = true :=
  ⟨fun arc id => (arc.walk_eq_contains id).symm, fun _ _ h id => h.existsUnique_arc id⟩

/-- Three points, of which the first stands before position 0 and the others after it. -/
def acrossZero : Fin 3 → NodeId
  | 0 => ⟨65000⟩
  | 1 => ⟨100⟩
  | 2 => ⟨200⟩

theorem arcs_walked_and_parted_acrossZero :
    InTurn acrossZero ∧ Arc.walk ⟨⟨65000⟩, ⟨100⟩, .strict⟩ ⟨65535⟩ = true ∧
      ∃! i, Arc.contains ⟨acrossZero i, acrossZero (i + 1), .upperClosed⟩ ⟨65535⟩ = true := by
  have hturn : InTurn acrossZero := by
    unfold InTurn StrictMono
    decide
  obtain ⟨hwalk, hcut⟩ := arcs_walked_and_parted
  exact ⟨hturn, (hwalk _ _).symm.trans (by decide), hcut 2 acrossZero hturn ⟨65535⟩⟩

end ChunkDirectory
