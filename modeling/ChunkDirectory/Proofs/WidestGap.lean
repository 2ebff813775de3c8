import ChunkDirectory.Proofs.Overlay.Complete
import ChunkDirectory.Proofs.Ring.Learning

/-!
# The widest gap

A ring that has too few superpeers is filled where it is emptiest. Each member ends a stretch of the
ring that begins at the member before it, and the only member ends the whole ring
(`NodeSet.Stretch`). `widestGap` runs once through the list in ascending order and keeps the longest
stretch so far, beginning with the one across position 0; what it has kept is a longest one of those
it has passed (`NodeSet.Widest.widen`).

Since it sorts first, the outcome is a matter of the set. All superpeers whose lists are complete
compute the same pair, so one of them promotes a peer and the others do not, and it promotes towards a
position between its predecessor and itself (`widestGap_one_owner`).
-/

namespace ChunkDirectory

open NodeId

namespace NodeId

/-- Steps back are steps forward from where they lead. -/
theorem clockwise_back (a : NodeId) {steps : Nat} (h : steps < 65536) :
    clockwise (a.back (UInt16.ofNat steps)) a = steps := by
  have ha := toNat_lt a
  have hsteps : (UInt16.ofNat steps).toNat = steps := UInt16.toNat_ofNat_of_lt' h
  have hback : (a.back (UInt16.ofNat steps)).toNat =
      (65536 - (UInt16.ofNat steps).toNat + a.toNat) % 65536 := UInt16.toNat_sub _ _
  rw [hsteps] at hback
  rw [clockwise_eq, hback]
  omega

end NodeId

namespace NodeSet

variable {s : NodeSet} {x low : NodeId} {g : Nat} {before rest seen : List NodeId}
  {widest : Nat × NodeId}

/-! ## Stretches -/

/-- From the nearest other member before `x` it is `g` steps to `x`; without another member it is a
full turn. -/
def Stretch (s : NodeSet) (x : NodeId) (g : Nat) : Prop :=
  (∃ p, s.Before x p ∧ g = clockwise p x) ∨ (∀ y ∈ s, y = x) ∧ g = 65536

theorem Stretch.unique {g' : Nat} (h : s.Stretch x g) (h' : s.Stretch x g') : g = g' := by
  rcases h with ⟨p, hp, rfl⟩ | ⟨halone, rfl⟩
  · rcases h' with ⟨p', hp', rfl⟩ | ⟨halone, -⟩
    · rw [hp.unique hp']
    · exact absurd (halone p hp.1) hp.2.1
  · rcases h' with ⟨p', hp', -⟩ | ⟨-, rfl⟩
    · exact absurd (halone p' hp'.1) hp'.2.1
    · rfl

theorem exists_stretch (s : NodeSet) (x : NodeId) : ∃ g, s.Stretch x g := by
  by_cases hother : ∃ y ∈ s, y ≠ x
  · obtain ⟨y, hy, hne⟩ := hother
    obtain ⟨p, hp⟩ := exists_before hy hne
    exact ⟨_, .inl ⟨p, hp, rfl⟩⟩
  · push Not at hother
    exact ⟨_, .inr ⟨hother, rfl⟩⟩

/-- Members that follow each other in the list are neighbours on the ring. -/
theorem stretch_of_adjacent (h : s.toList = before ++ low :: x :: rest) :
    s.Stretch x (x.toNat - low.toNat) := by
  have hasc := s.ascending
  rw [h] at hasc
  obtain ⟨-, hrest, hcross⟩ := List.pairwise_append.mp hasc
  obtain ⟨hlow, htail⟩ := List.pairwise_cons.mp hrest
  have hlt := lt_def.mp (hlow x List.mem_cons_self)
  have hmem : ∀ y, y ∈ s ↔ y ∈ before ++ low :: x :: rest := fun y => by rw [← h]; exact Iff.rfl
  have hx := toNat_lt x
  refine .inl ⟨low, ⟨by simp [hmem], ne_of_lt (lt_def.mpr hlt), fun y hy hne => ?_⟩, ?_⟩
  · have hy' := toNat_lt y
    have hplace : y.toNat ≤ low.toNat ∨ x.toNat < y.toNat := by
      simp only [hmem, List.mem_append, List.mem_cons, hne, false_or] at hy
      rcases hy with hy | rfl | hy
      · exact .inl (Nat.le_of_lt (lt_def.mp (hcross y hy low List.mem_cons_self)))
      · exact .inl (Nat.le_refl _)
      · exact .inr (lt_def.mp ((List.pairwise_cons.mp htail).1 y hy))
    rw [clockwise_eq, clockwise_eq]
    omega
  · rw [clockwise_eq]
    omega

/-- The first member in the list comes after the last one on the ring. -/
theorem stretch_of_first (h : s.toList = x :: rest) :
    s.Stretch x (x.toNat + 65536 - ((x :: rest).getLast (List.cons_ne_nil _ _)).toNat) := by
  have hasc := s.ascending
  rw [h] at hasc
  have hmem : ∀ y, y ∈ s ↔ y ∈ x :: rest := fun y => by rw [← h]; exact Iff.rfl
  obtain ⟨hlast, hmax⟩ := (getLast?_eq_some_iff_of_ascending (f := toNat) hasc).mp
    (List.getLast?_eq_some_getLast (List.cons_ne_nil x rest))
  generalize (x :: rest).getLast (List.cons_ne_nil x rest) = last at hlast hmax
  have hlt := toNat_lt last
  by_cases halone : last = x
  · subst halone
    refine .inr ⟨fun y hy => ?_, by omega⟩
    rcases List.mem_cons.mp ((hmem y).mp hy) with rfl | hrest
    · rfl
    · have hmin := lt_def.mp ((List.pairwise_cons.mp hasc).1 y hrest)
      have hle := hmax y ((hmem y).mp hy)
      omega
  · have hfirst : ∀ y ∈ s, y ≠ x → x.toNat < y.toNat := fun y hy hne =>
      lt_def.mp ((List.pairwise_cons.mp hasc).1 y
        ((List.mem_cons.mp ((hmem y).mp hy)).resolve_left hne))
    have hbelow := hfirst last ((hmem last).mpr hlast) halone
    refine .inl ⟨last, ⟨(hmem last).mpr hlast, halone, fun y hy hne => ?_⟩, ?_⟩
    · have hle := hmax y ((hmem y).mp hy)
      have hpos := hfirst y hy hne
      have hy' := toNat_lt y
      rw [clockwise_eq, clockwise_eq]
      omega
    · rw [clockwise_eq]
      omega

/-! ## The longest stretch -/

/-- A stretch that no stretch of the members seen exceeds. -/
structure Widest (s : NodeSet) (seen : List NodeId) (widest : Nat × NodeId) : Prop where
  mem : widest.2 ∈ s
  stretch : s.Stretch widest.2 widest.1
  longest : ∀ x ∈ seen, ∀ g, s.Stretch x g → g ≤ widest.1

/-- With each further member the longest stretch so far is kept. -/
theorem Widest.widen (h : s.Widest (before ++ [low]) widest)
    (hlist : s.toList = before ++ low :: rest) : s.Widest s.toList (widenGap widest low rest) := by
  induction rest generalizing before low widest with
  | nil =>
    rw [hlist]
    exact h
  | cons high rest ih =>
    have hlist' : s.toList = (before ++ [low]) ++ high :: rest := by simpa using hlist
    have hmem : high ∈ s := by
      show high ∈ s.toList
      simp [hlist']
    have hstep := stretch_of_adjacent hlist
    refine ih ?_ hlist'
    split
    case isTrue hwider =>
      refine ⟨hmem, hstep, fun x hx g hg => ?_⟩
      rcases List.mem_append.mp hx with hx | hx
      · exact Nat.le_trans (h.longest x hx g hg) (Nat.le_of_lt hwider)
      · obtain rfl := List.mem_singleton.mp hx
        exact Nat.le_of_eq (hg.unique hstep)
    case isFalse hnarrow =>
      refine ⟨h.mem, h.stretch, fun x hx g hg => ?_⟩
      rcases List.mem_append.mp hx with hx | hx
      · exact h.longest x hx g hg
      · obtain rfl := List.mem_singleton.mp hx
        rw [hg.unique hstep]
        exact Nat.not_lt.mp hnarrow

/-- The outcome is a longest stretch of the set. -/
theorem exists_widestGap {ids : List NodeId} (h : ids ≠ []) :
    ∃ widest, widestGap ids = some widest ∧ (ofList ids).Widest (ofList ids).toList widest := by
  cases hlist : (ofList ids).toList with
  | nil =>
    obtain ⟨x, hx⟩ := List.exists_mem_of_ne_nil ids h
    have hmem : x ∈ (ofList ids).toList := mem_ofList.mpr hx
    rw [hlist] at hmem
    cases hmem
  | cons first rest =>
    have hfirst := stretch_of_first hlist
    have hstart : (ofList ids).Widest ([] ++ [first])
        (first.toNat + 65536 - ((first :: rest).getLast (List.cons_ne_nil _ _)).toNat, first) := by
      refine ⟨?_, hfirst, fun x hx g hg => ?_⟩
      · show first ∈ (ofList ids).toList
        simp [hlist]
      · obtain rfl := List.mem_singleton.mp hx
        exact Nat.le_of_eq (hg.unique hfirst)
    have hwidest := hstart.widen hlist
    rw [hlist] at hwidest
    refine ⟨_, ?_, hwidest⟩
    simp only [widestGap, hlist]

theorem widestGap_congr {ids ids' : List NodeId} (h : ∀ x, x ∈ ids' ↔ x ∈ ids) :
    widestGap ids' = widestGap ids := by
  have hset : ofList ids' = ofList ids := eq_of_mem_iff fun x => by rw [mem_ofList, mem_ofList, h]
  rw [widestGap, widestGap, hset]

/-- A stretch between two members is less than a full turn. -/
theorem Stretch.lt (h : s.Stretch x g) (hsize : 2 ≤ s.size) : g < 65536 := by
  rcases h with ⟨p, -, rfl⟩ | ⟨halone, -⟩
  · exact clockwise_lt p x
  · obtain ⟨y, hy, hne⟩ := exists_ne hsize x
    exact absurd (halone y hy) hne

/-- Half of a stretch leads back to a position inside it. -/
theorem Stretch.mem_middle {p : NodeId} (h : s.Stretch x g) (hp : s.Before x p) (hwide : 2 ≤ g) :
    Arc.contains ⟨p, x, .strict⟩ (x.back (UInt16.ofNat (g / 2))) = true := by
  have hg : g = clockwise p x := h.unique (.inl ⟨p, hp, rfl⟩)
  have hlt := clockwise_lt p x
  have hhalf : g / 2 < 65536 := by omega
  have hback := clockwise_back x hhalf
  rw [Arc.mem_strict_iff hp.2.1, hback]
  refine ⟨fun heq => ?_, by omega⟩
  rw [heq, clockwise_self] at hback
  omega

end NodeSet

/-! ## Who fills it -/

namespace Protocol

/-- A superpeer that knows all others looks at the same gaps as they do. -/
theorem widestGap_of_listed {s : NodeSet} {n : Node} (hme : n.me ∈ s)
    (hlisted : n.ring.superpeers = s.erase n.me) :
    widestGap (n.ring.superpeers.toList ++ [n.me]) = widestGap s.toList := by
  refine NodeSet.widestGap_congr fun x => ?_
  rw [List.mem_append, List.mem_singleton, hlisted]
  show x ∈ s.erase n.me ∨ x = n.me ↔ x ∈ s
  rw [NodeSet.mem_erase]
  by_cases hx : x = n.me
  · simp [hx, hme]
  · simp [hx]

/-- A superpeer that knows others, in a ring that has been too small for long enough, promotes a peer
towards the middle of the widest gap if it ends there. -/
theorem promoteIfNecessary_of_due {n : Node} {state : UpkeepState} {gap : Nat} {owner : NodeId}
    (hsmall : n.ring.superpeers.size + 1 < n.config.expectedSuperpeers)
    (hlong : n.config.promotionThreshold ≤ state.unstableTicks)
    (hothers : n.ring.superpeers.isEmpty = false)
    (hgap : widestGap (n.ring.superpeers.toList ++ [n.me]) = some (gap, owner))
    (hhalf : gap / 2 < 65536) :
    promoteIfNecessary state n =
      (do
        if owner = n.me then promoteOnePeer (n.me.back (UInt16.ofNat (gap / 2)))
        return { state with unstableTicks := 0 } : Task UpkeepState) n := by
  show (if n.config.expectedSuperpeers ≤ n.ring.superpeers.size + 1 then _ else
    if state.unstableTicks < n.config.promotionThreshold then _ else
      if n.ring.superpeers.isEmpty then _ else _ : Task UpkeepState) n = _
  rw [if_neg (by omega), if_neg (by omega), hothers, if_neg (by simp), hgap]
  show (if owner = n.me then (do
    promoteOnePeer (n.me.back (UInt16.ofNat (min (gap / 2) 65535)))
    return { state with unstableTicks := 0 }) else _ : Task UpkeepState) n = _
  rw [Nat.min_eq_left (by omega)]

end Protocol

open Protocol

/-- For any list of identifiers but the empty one, the widest gap ends at one of them, is its distance
from the one before it, a full turn if there is no other, and is exceeded by none; order and
repetitions make no difference. So of two or more superpeers that list each other one and only one
takes itself for the owner of the widest gap. When the ring has been too small for long enough it
promotes a peer, and the others do not. Half of the gap fits into 16 bits, and if the gap has a
position inside, the position aimed at lies between the owner and its predecessor. -/
theorem widestGap_one_owner :
    (∀ ids : List NodeId, ids ≠ [] →
      ∃ gap owner, widestGap ids = some (gap, owner) ∧ owner ∈ ids ∧
        (NodeSet.ofList ids).Stretch owner gap ∧
        (∀ x ∈ ids, ∃ g ≤ gap, (NodeSet.ofList ids).Stretch x g) ∧
        ∀ ids', (∀ x, x ∈ ids' ↔ x ∈ ids) → widestGap ids' = some (gap, owner)) ∧
    ∀ s : NodeSet, 2 ≤ s.size →
      ∃ gap, ∃ owner ∈ s, s.Stretch owner gap ∧ gap / 2 < 65536 ∧
        (∀ p, s.Before owner p → 2 ≤ gap →
          Arc.contains ⟨p, owner, .strict⟩ (owner.back (UInt16.ofNat (gap / 2))) = true) ∧
        ∀ n : Node, n.me ∈ s → n.ring.superpeers = s.erase n.me →
          widestGap (n.ring.superpeers.toList ++ [n.me]) = some (gap, owner) ∧
          ∀ state, s.size < n.config.expectedSuperpeers →
            n.config.promotionThreshold ≤ state.unstableTicks →
            promoteIfNecessary state n =
              (do
                if owner = n.me then promoteOnePeer (owner.back (UInt16.ofNat (gap / 2)))
                return { state with unstableTicks := 0 } : Task UpkeepState) n := by
  constructor
  · intro ids hne
    obtain ⟨⟨gap, owner⟩, hgap, hwidest⟩ := NodeSet.exists_widestGap hne
    refine ⟨gap, owner, hgap, NodeSet.mem_ofList.mp hwidest.mem, hwidest.stretch, fun x hx => ?_,
      fun ids' hsame => (NodeSet.widestGap_congr hsame).trans hgap⟩
    obtain ⟨g, hg⟩ := (NodeSet.ofList ids).exists_stretch x
    exact ⟨g, hwidest.longest x (NodeSet.mem_ofList.mpr hx) g hg, hg⟩
  · intro s hsize
    have hsame : NodeSet.ofList s.toList = s := NodeSet.eq_of_mem_iff fun x => NodeSet.mem_ofList
    obtain ⟨y, hy, -⟩ := NodeSet.exists_ne hsize default
    obtain ⟨⟨gap, owner⟩, hgap, hwidest⟩ :=
      NodeSet.exists_widestGap (List.ne_nil_of_mem (show y ∈ s.toList from hy))
    rw [hsame] at hwidest
    have hlt := hwidest.stretch.lt hsize
    refine ⟨gap, owner, hwidest.mem, hwidest.stretch, by omega,
      fun p hp hwide => hwidest.stretch.mem_middle hp hwide, fun n hme hlisted => ?_⟩
    have hfound := (widestGap_of_listed hme hlisted).trans hgap
    refine ⟨hfound, fun state hsmall hlong => ?_⟩
    have hcount : n.ring.superpeers.size + 1 = s.size := by
      rw [hlisted]
      exact (NodeSet.size_eq_of_mem hme).symm
    have hpos : 0 < n.ring.superpeers.size := by omega
    have hothers : n.ring.superpeers.isEmpty = false :=
      List.isEmpty_eq_false_iff.mpr (List.length_pos_iff.mp hpos)
    rw [promoteIfNecessary_of_due (by omega) hlong hothers hfound (by omega)]
    by_cases howner : owner = n.me
    · rw [if_pos howner, if_pos howner, howner]
    · rw [if_neg howner, if_neg howner]

/-- A superpeer of the small ring that expects one more. -/
def shortOfOne : Node :=
  .complete Overlay.smallRing { Overlay.twoAttempts ⟨0⟩ .superpeer with expectedSuperpeers := 3 }

/-- In the small ring the superpeer at 0 fills the gap that begins at 1000, whatever the order of the
list, and after thirty rounds it aims at its middle. -/
theorem widestGap_one_owner_smallRing :
    ([⟨1000⟩, ⟨0⟩, ⟨1000⟩] : List NodeId) ≠ [] ∧ 2 ≤ Overlay.smallRing.size ∧
      widestGap [⟨0⟩, ⟨1000⟩] = some (64536, ⟨0⟩) ∧
      Arc.contains ⟨⟨1000⟩, ⟨0⟩, .strict⟩ ⟨33268⟩ = true ∧
      promoteIfNecessary ⟨0, 30⟩ shortOfOne =
        (promoteOnePeer ⟨33268⟩ >>= fun _ => return ⟨0, 0⟩ : Task UpkeepState) shortOfOne := by
  have hgap : widestGap [⟨1000⟩, ⟨0⟩, ⟨1000⟩] = some (64536, ⟨0⟩) := by decide
  have hsize : 2 ≤ Overlay.smallRing.size := by decide
  obtain ⟨_, _, hfound, -, -, -, hsame⟩ := widestGap_one_owner.1 [⟨1000⟩, ⟨0⟩, ⟨1000⟩] (by decide)
  cases hfound.symm.trans hgap
  obtain ⟨_, _, -, -, -, hmiddle, hnode⟩ := widestGap_one_owner.2 Overlay.smallRing hsize
  obtain ⟨hfound, hpromote⟩ := hnode shortOfOne (by decide) rfl
  cases hfound.symm.trans (by decide : _ = some (64536, ⟨0⟩))
  refine ⟨by decide, hsize, hsame [⟨0⟩, ⟨1000⟩] fun x => by grind, ?_, ?_⟩
  · exact hmiddle ⟨1000⟩ (by decide) (by decide)
  · exact hpromote ⟨0, 30⟩ (by decide) (by decide)

end ChunkDirectory
