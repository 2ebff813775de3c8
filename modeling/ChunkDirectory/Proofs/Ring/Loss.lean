import ChunkDirectory.Proofs.Ring.Formed

/-!
# A member is lost

The members of a ring can be listed in a round from any point on. A round from a member is the same
list, begun there (`NodeSet.roundFrom_of_append`), and without a member the round just lacks it
(`NodeSet.roundFrom_erase`).

The first members from a position on hold what is stored there (`NodeSet.holders`). When one of them
is lost the next one becomes a holder. Which other member passes the content on to it depends on
whether the owner was lost or a keeper of copies (`NodeSet.Passes`).
-/

namespace ChunkDirectory

open NodeId

namespace NodeSet

variable {s : NodeSet} {id x y failed : NodeId} {before after l : List NodeId}

/-! ## Rounds -/

/-- A round is determined by its members. -/
theorem roundFrom_eq (h : l.Pairwise fun a b => clockwise id a < clockwise id b)
    (hmem : ∀ x, x ∈ l ↔ x ∈ s) : s.roundFrom id = l := by
  have hirrefl : Std.Irrefl fun a b : NodeId => clockwise id a < clockwise id b :=
    ⟨fun _ => Nat.lt_irrefl _⟩
  have hantisymm : Std.Antisymm fun a b : NodeId => clockwise id a < clockwise id b :=
    ⟨fun _ _ hab hba => absurd hab (Nat.lt_asymm hba)⟩
  exact (s.roundFrom_ascending id).eq_of_mem_iff h fun x => mem_roundFrom.trans (hmem x).symm

theorem roundFrom_nodup (s : NodeSet) (id : NodeId) : (s.roundFrom id).Nodup :=
  (s.roundFrom_ascending id).imp fun hlt heq => by rw [heq] at hlt; exact Nat.lt_irrefl _ hlt

theorem toList_nodup (s : NodeSet) : s.toList.Nodup := s.ascending.imp fun hlt => ne_of_lt hlt

theorem length_roundFrom (s : NodeSet) (id : NodeId) : (s.roundFrom id).length = s.size := by
  have hperm : (s.roundFrom id).Perm s.toList :=
    (List.perm_ext_iff_of_nodup (s.roundFrom_nodup id) s.toList_nodup).mpr fun _ => mem_roundFrom
  exact hperm.length_eq

theorem roundFrom_erase (s : NodeSet) (x id : NodeId) :
    (s.erase x).roundFrom id = (s.roundFrom id).filter (· ≠ x) := by
  refine roundFrom_eq ((s.roundFrom_ascending id).filter _) fun y => ?_
  rw [List.mem_filter, mem_roundFrom, mem_erase, decide_eq_true_iff]

/-- A round that is begun at one of its members. -/
theorem roundFrom_of_append (h : s.roundFrom id = before ++ x :: after) :
    s.roundFrom x = x :: after ++ before := by
  have hasc := s.roundFrom_ascending id
  rw [h] at hasc
  obtain ⟨hbefore, hrest, hcross⟩ := List.pairwise_append.mp hasc
  obtain ⟨hafter, hrest'⟩ := List.pairwise_cons.mp hrest
  -- What comes after `x` is at the remaining distance, what comes before it one full turn farther.
  have hlate : ∀ y ∈ x :: after, clockwise id x + clockwise x y = clockwise id y := by
    intro y hy
    rcases List.mem_cons.mp hy with rfl | hy
    · rw [clockwise_self, Nat.add_zero]
    · exact clockwise_add_of_le (Nat.le_of_lt (hafter y hy))
  have hearly : ∀ y ∈ before, clockwise id x + clockwise x y = clockwise id y + 65536 := by
    intro y hy
    have hlt := hcross y hy x List.mem_cons_self
    have hsum := clockwise_add id x y
    omega
  refine roundFrom_eq (List.pairwise_append.mpr ⟨?_, ?_, ?_⟩) fun y => ?_
  · refine hrest.imp_of_mem fun {a b} ha hb hab => ?_
    have h₁ := hlate a ha
    have h₂ := hlate b hb
    omega
  · refine hbefore.imp_of_mem fun {a b} ha hb hab => ?_
    have h₁ := hearly a ha
    have h₂ := hearly b hb
    omega
  · intro a ha b hb
    have h₁ := hlate a ha
    have h₂ := hearly b hb
    have hlt := clockwise_lt id a
    omega
  · have hperm : y ∈ x :: after ++ before ↔ y ∈ s.roundFrom id := by
      rw [h]
      exact List.perm_append_comm.mem_iff
    exact hperm.trans mem_roundFrom

/-- The round from a position is the one from its owner. -/
theorem Owns.roundFrom_eq (h : s.Owns id x) : s.roundFrom id = s.roundFrom x := by
  obtain ⟨after, hafter⟩ := List.head?_eq_some_iff.mp (head?_roundFrom.mpr h)
  have hround : s.roundFrom x = x :: after ++ [] := roundFrom_of_append hafter
  rw [hafter, hround, List.append_nil]

theorem owns_of_roundFrom (h : s.roundFrom id = x :: after) : s.Owns id x :=
  head?_roundFrom.mp (by rw [h, List.head?_cons])

/-- A member is met first, then the others. -/
theorem roundFrom_self (h : x ∈ s) : s.roundFrom x = x :: (s.erase x).roundFrom x := by
  obtain ⟨after, hafter⟩ := List.head?_eq_some_iff.mp (head?_roundFrom.mpr (owns_self h))
  have hnodup := s.roundFrom_nodup x
  rw [hafter] at hnodup
  have hnot := (List.nodup_cons.mp hnodup).1
  have hkept : ∀ y ∈ after, decide (y ≠ x) = true :=
    fun y hy => decide_eq_true fun heq => hnot (heq ▸ hy)
  rw [roundFrom_erase, hafter, List.filter_cons_of_neg (by simp), List.filter_eq_self.mpr hkept]

/-! ## Holders -/

/-- The owner of a position and the members after it that keep copies. -/
def holders (s : NodeSet) (id : NodeId) : List NodeId := (s.roundFrom id).take (replicas + 1)

theorem mem_of_mem_holders (h : x ∈ s.holders id) : x ∈ s :=
  mem_roundFrom.mp (List.mem_of_mem_take h)

theorem Owns.mem_holders (h : s.Owns id x) : x ∈ s.holders id := by
  obtain ⟨rest, hround⟩ := List.head?_eq_some_iff.mp (head?_roundFrom.mpr h)
  rw [holders, hround, List.take_succ_cons]
  exact List.mem_cons_self

theorem holders_nodup (s : NodeSet) (id : NodeId) : (s.holders id).Nodup :=
  (s.roundFrom_nodup id).sublist (List.take_sublist _ _)

/-- When `failed` is lost, `sender` is the one to pass what is stored at `id` on to `heir`: the last
holder if the owner was lost, else the owner. -/
inductive Passes (s : NodeSet) (failed id : NodeId) : NodeId → NodeId → Prop
  | dataOf {b c sender heir : NodeId} {rest : List NodeId} :
      s.roundFrom id = failed :: b :: c :: sender :: heir :: rest → Passes s failed id sender heir
  | own {sender b c d heir : NodeId} {rest : List NodeId} :
      s.roundFrom id = sender :: b :: c :: d :: heir :: rest → failed ∈ [b, c, d] →
      Passes s failed id sender heir

/-- Of a list without one element, the first ones are among the first ones of the list, or one more
if the element was one of these. -/
theorem mem_take_filter_ne {k : Nat} (hnodup : l.Nodup) (h : y ∈ (l.filter (· ≠ x)).take k) :
    y ∈ l.take k ∨ x ∈ l.take k ∧ l[k]? = some y := by
  induction l generalizing k with
  | nil => simp at h
  | cons a rest ih =>
    obtain ⟨hnot, hrest⟩ := List.nodup_cons.mp hnodup
    cases k with
    | zero => simp at h
    | succ k =>
      by_cases ha : a = x
      · subst ha
        have hkept : rest.filter (· ≠ a) = rest := List.filter_eq_self.mpr fun z hz =>
          decide_eq_true fun heq => hnot (heq ▸ hz)
        rw [List.filter_cons_of_neg (by simp), hkept, List.take_add_one] at h
        rcases List.mem_append.mp h with h | h
        · exact .inl (List.mem_cons_of_mem a h)
        · exact .inr ⟨List.mem_cons_self, Option.mem_toList.mp h⟩
      · rw [List.filter_cons_of_pos (by simpa using ha), List.take_succ_cons] at h
        rcases List.mem_cons.mp h with rfl | h
        · exact .inl List.mem_cons_self
        · rcases ih hrest h with h | ⟨hx, hy⟩
          · exact .inl (List.mem_cons_of_mem a h)
          · exact .inr ⟨List.mem_cons_of_mem a hx, hy⟩

/-- Who holds a position after a loss held it before, or another member passes the content on to it.
-/
theorem holders_erase (h : y ∈ (s.erase failed).holders id) :
    y ∈ s.holders id ∨ ∃ x, x ∈ s.erase failed ∧ s.Passes failed id x y := by
  have hnodup := s.roundFrom_nodup id
  rw [holders, roundFrom_erase] at h
  refine (mem_take_filter_ne hnodup h).imp_right ?_
  rintro ⟨hfailed, hy⟩
  have hmem : ∀ {x}, x ∈ s.roundFrom id → x ≠ failed → x ∈ s.erase failed :=
    fun hx hne => mem_erase.mpr ⟨mem_roundFrom.mp hx, hne⟩
  match hround : s.roundFrom id, hnodup, hfailed, hy with
  | a :: b :: c :: d :: e :: rest, hnodup, hfailed, hy =>
    cases hy
    have ha := (List.nodup_cons.mp hnodup).1
    rw [hround] at hmem
    by_cases heq : a = failed
    · subst heq
      refine ⟨d, hmem (by simp) fun h => ha (h ▸ by simp), .dataOf hround⟩
    · refine ⟨a, hmem (by simp) heq, .own hround ?_⟩
      exact (List.mem_cons.mp hfailed).resolve_left (Ne.symm heq)

/-! ## Neighbours -/

theorem After.erase (h : s.After id x) (hne : x ≠ failed) : (s.erase failed).After id x :=
  ⟨mem_erase.mpr ⟨h.1, hne⟩, h.2.1, fun y hy hyid => h.2.2 y (mem_erase.mp hy).1 hyid⟩

/-- Without the nearest member before `id`, the nearest one is the one before that member. -/
theorem Before.before_erase_iff (h : s.Before id failed) :
    ((s.erase id).erase failed).Before failed x ↔ (s.erase failed).Before id x := by
  have hadd : ∀ y ∈ s, y ≠ id → clockwise y failed + clockwise failed id = clockwise y id :=
    fun y hy hne => h.clockwise_add hy hne
  constructor
  · rintro ⟨hx, hxfailed, hmin⟩
    obtain ⟨hxs, hxid⟩ := mem_erase.mp (mem_erase.mp hx).1
    refine ⟨mem_erase.mpr ⟨hxs, hxfailed⟩, hxid, fun y hy hyid => ?_⟩
    obtain ⟨hys, hyfailed⟩ := mem_erase.mp hy
    have hle := hmin y (mem_erase.mpr ⟨mem_erase.mpr ⟨hys, hyid⟩, hyfailed⟩) hyfailed
    have h₁ := hadd x hxs hxid
    have h₂ := hadd y hys hyid
    omega
  · rintro ⟨hx, hxid, hmin⟩
    obtain ⟨hxs, hxfailed⟩ := mem_erase.mp hx
    refine ⟨mem_erase.mpr ⟨mem_erase.mpr ⟨hxs, hxid⟩, hxfailed⟩, hxfailed, fun y hy _ => ?_⟩
    obtain ⟨hyerase, hyfailed⟩ := mem_erase.mp hy
    obtain ⟨hys, hyid⟩ := mem_erase.mp hyerase
    have hle := hmin y (mem_erase.mpr ⟨hys, hyfailed⟩) hyid
    have h₁ := hadd x hxs hxid
    have h₂ := hadd y hys hyid
    omega

/-- Without the nearest member after `id`, the nearest one is the one after that member. -/
theorem After.after_erase_iff (h : s.After id failed) :
    ((s.erase id).erase failed).After failed x ↔ (s.erase failed).After id x := by
  have hadd : ∀ y ∈ s, y ≠ id → clockwise id failed + clockwise failed y = clockwise id y :=
    fun y hy hne => clockwise_add_of_le (h.2.2 y hy hne)
  constructor
  · rintro ⟨hx, hxfailed, hmin⟩
    obtain ⟨hxs, hxid⟩ := mem_erase.mp (mem_erase.mp hx).1
    refine ⟨mem_erase.mpr ⟨hxs, hxfailed⟩, hxid, fun y hy hyid => ?_⟩
    obtain ⟨hys, hyfailed⟩ := mem_erase.mp hy
    have hle := hmin y (mem_erase.mpr ⟨mem_erase.mpr ⟨hys, hyid⟩, hyfailed⟩) hyfailed
    have h₁ := hadd x hxs hxid
    have h₂ := hadd y hys hyid
    omega
  · rintro ⟨hx, hxid, hmin⟩
    obtain ⟨hxs, hxfailed⟩ := mem_erase.mp hx
    refine ⟨mem_erase.mpr ⟨mem_erase.mpr ⟨hxs, hxid⟩, hxfailed⟩, hxfailed, fun y hy _ => ?_⟩
    obtain ⟨hyerase, hyfailed⟩ := mem_erase.mp hy
    obtain ⟨hys, hyid⟩ := mem_erase.mp hyerase
    have hle := hmin y (mem_erase.mpr ⟨hys, hyfailed⟩) hyid
    have h₁ := hadd x hxs hxid
    have h₂ := hadd y hys hyid
    omega

/-- What comes after a member owns the next position. -/
theorem After.owns_forward (h : s.After id x) : s.Owns (id.forward 1) x := by
  refine ⟨h.1, fun y hy => ?_⟩
  have hlt := clockwise_lt id x
  rw [clockwise_forward, clockwise_forward, if_neg h.2.1]
  split
  case isTrue => omega
  case isFalse hne =>
    have hle := h.2.2 y hy hne
    omega

/-! ## The others as a member meets them -/

section

variable {me start next b c d : NodeId} {front rest : List NodeId}

/-- Around the last holder of what a failed member owned. -/
theorem round_of_dataOf (h : s.roundFrom id = failed :: b :: c :: me :: y :: rest) :
    (s.erase me).roundFrom me = y :: rest ++ [failed, b, c] := by
  have hself : s.roundFrom me = me :: (y :: rest) ++ [failed, b, c] :=
    roundFrom_of_append (by rw [h]; rfl)
  have hmem : me ∈ s := mem_roundFrom.mp (by rw [h]; simp)
  rw [roundFrom_self hmem, List.cons_append] at hself
  exact (List.cons.inj hself).2

/-- Around an owner. -/
theorem round_of_own (h : s.roundFrom id = me :: rest) : (s.erase me).roundFrom me = rest := by
  have hown := owns_of_roundFrom h
  rw [hown.roundFrom_eq, roundFrom_self hown.1] at h
  exact (List.cons.inj h).2

/-- In the round of others the next to last but two owns what lies after the one before it. -/
theorem before_next (hme : me ∈ s)
    (h : (s.erase me).roundFrom me = front ++ [start, next, b, c]) : s.Before next start := by
  have hself := roundFrom_self hme
  rw [h, ← List.cons_append, List.append_cons] at hself
  have hnext := roundFrom_of_append hself
  have hnodup := s.roundFrom_nodup next
  rw [hnext] at hnodup
  have hne : start ≠ next := fun heq => (List.nodup_cons.mp hnodup).1 (heq ▸ by simp)
  refine getLast?_roundFrom.mp ?_
  rw [hnext, ← List.append_assoc, List.getLast?_concat, Option.filter_some,
    if_pos (decide_eq_true hne)]

/-- The member itself is the last holder of that. -/
theorem mem_holders_of_owns (hme : me ∈ s)
    (h : (s.erase me).roundFrom me = front ++ [start, next, b, c]) (hown : s.Owns id next) :
    me ∈ s.holders id := by
  have hself := roundFrom_self hme
  rw [h, ← List.cons_append, List.append_cons] at hself
  rw [holders, hown.roundFrom_eq, roundFrom_of_append hself]
  simp [replicas]

/-- The first three in a round lie on the arc from the first to the third. -/
theorem mem_closed (h : s.roundFrom id = b :: c :: d :: rest) (hx : x ∈ [b, c, d]) :
    Arc.contains ⟨b, d, .closed⟩ x = true := by
  have hasc := s.roundFrom_ascending id
  rw [h] at hasc
  obtain ⟨hb, hrest⟩ := List.pairwise_cons.mp hasc
  obtain ⟨hc, -⟩ := List.pairwise_cons.mp hrest
  have hbd := hb d (by simp)
  have hbx : clockwise id b ≤ clockwise id x := by
    rcases List.mem_cons.mp hx with rfl | hx
    · exact Nat.le_refl _
    · exact Nat.le_of_lt (hb x (List.mem_append_left rest hx))
  have hxd : clockwise id x ≤ clockwise id d := by
    rcases List.mem_cons.mp hx with rfl | hx
    · exact Nat.le_of_lt hbd
    rcases List.mem_cons.mp hx with rfl | hx
    · exact Nat.le_of_lt (hc d (by simp))
    · rw [List.mem_singleton.mp hx]
  have hne : b ≠ d := fun heq => by rw [heq] at hbd; exact Nat.lt_irrefl _ hbd
  have h₁ := clockwise_add_of_le hbx
  have h₂ := clockwise_add_of_le (Nat.le_of_lt hbd)
  simp only [Arc.contains, if_neg hne, decide_eq_true_eq]
  omega

end

end NodeSet

namespace Ring

variable {s : NodeSet} {r : Ring} {id x y b c d start next failed : NodeId}
  {front rest : List NodeId}

namespace Exact

/-- A superpeer that drops a failed one is exact for the ring that is left. -/
theorem removeSuperpeer (h : r.Exact s) (hfailed : failed ∈ s) (hne : failed ≠ r.me) :
    (r.removeSuperpeer failed).Exact (s.erase failed) := by
  have hlisted : r.superpeers.contains failed = true := by
    rw [h.superpeers]
    exact decide_eq_true (NodeSet.mem_erase.mpr ⟨hfailed, hne⟩)
  obtain ⟨p, q, hp, hbefore, hq, hafter⟩ := h.exists_neighbours hfailed hne
  unfold Ring.removeSuperpeer
  rw [if_pos hlisted]
  refine ⟨⟨fun x => ?_, fun x => ?_⟩, ?_⟩
  · show (if r.predecessor = some failed then _ else r.predecessor) = some x ↔ _
    split
    case isTrue heq =>
      rw [previousBefore_eq_some_iff]
      show (r.superpeers.erase failed).Before failed x ↔ (s.erase failed).Before r.me x
      rw [h.superpeers]
      exact ((h.predecessor failed).mp heq).before_erase_iff
    case isFalse hother =>
      have hpne : p ≠ failed := fun heq => hother (heq ▸ hp)
      have hbefore' := hbefore.mono (fun y hy => (NodeSet.mem_erase.mp hy).1)
        (NodeSet.mem_erase.mpr ⟨hbefore.1, hpne⟩)
      rw [hp, Option.some_inj]
      exact ⟨fun heq => heq ▸ hbefore', fun hx => hbefore'.unique hx⟩
  · show (if r.successor = some failed then _ else r.successor) = some x ↔ _
    split
    case isTrue heq =>
      rw [nextAfter_eq_some_iff]
      show (r.superpeers.erase failed).After failed x ↔ (s.erase failed).After r.me x
      rw [h.superpeers]
      exact ((h.successor failed).mp heq).after_erase_iff
    case isFalse hother =>
      have hafter' := hafter.erase fun heq : q = failed => hother (heq ▸ hq)
      rw [hq, Option.some_inj]
      exact ⟨fun heq => heq ▸ hafter', fun hx => hafter'.unique hx⟩
  · show r.superpeers.erase failed = (s.erase failed).erase r.me
    rw [h.superpeers]
    refine NodeSet.eq_of_mem_iff fun x => ?_
    rw [NodeSet.mem_erase, NodeSet.mem_erase, NodeSet.mem_erase, NodeSet.mem_erase, and_right_comm]

end Exact

/-! ## The window of a superpeer

`front ++ [start, next, b, c]` are the others in the order in which a superpeer meets them. What it
keeps copies of begins with what `next` owns. -/

theorem successorsAfter_me (h : r.superpeers = s.erase r.me) :
    r.successorsAfter r.me = (s.erase r.me).roundFrom r.me := by
  rw [successorsAfter, h]
  exact List.filter_eq_self.mpr fun x hx =>
    decide_eq_true (NodeSet.mem_erase.mp (NodeSet.mem_roundFrom.mp hx)).2

/-- What an owner that lists all others names as its backups are the other holders. -/
theorem me_cons_backups (h : r.superpeers = s.erase r.me) (hown : s.Owns id r.me) :
    r.me :: r.backups r.me = s.holders id := by
  rw [NodeSet.holders, hown.roundFrom_eq, NodeSet.roundFrom_self hown.1, backups,
    successorsAfter_me h, List.take_succ_cons]

/-- The same of a view of which it is known whose it is. -/
theorem cons_backups {owner : NodeId} (hme : r.me = owner) (h : r.superpeers = s.erase owner)
    (hown : s.Owns id owner) : owner :: r.backups owner = s.holders id := by
  subst hme
  exact me_cons_backups h hown

namespace Exact

theorem successorsAfter_me (h : r.Exact s) :
    r.successorsAfter r.me = (s.erase r.me).roundFrom r.me := Ring.successorsAfter_me h.superpeers

theorem holders (h : r.Exact s) (hown : s.Owns id r.me) :
    r.me :: r.backups r.me = s.holders id := me_cons_backups h.superpeers hown

theorem size_superpeers (h : r.Exact s) :
    r.superpeers.size = ((s.erase r.me).roundFrom r.me).length := by
  rw [h.superpeers, NodeSet.length_roundFrom]

theorem exists_window (h : r.Exact s) (hsize : replicas < r.superpeers.size) :
    ∃ front start next b c, (s.erase r.me).roundFrom r.me = front ++ [start, next, b, c] := by
  rw [h.size_superpeers] at hsize
  generalize (s.erase r.me).roundFrom r.me = l at hsize
  have hlength : (l.drop (l.length - 4)).length = 4 := by
    rw [List.length_drop]
    exact Nat.sub_sub_self hsize
  match htail : l.drop (l.length - 4), hlength with
  | [start, next, b, c], _ =>
    exact ⟨l.take (l.length - 4), start, next, b, c, by rw [← htail, List.take_append_drop]⟩

section

variable (h : r.Exact s) (hround : (s.erase r.me).roundFrom r.me = front ++ [start, next, b, c])

include h hround

theorem area_eq : r.area r.me = .window start r.me := by
  have hsize : ¬ r.superpeers.size ≤ replicas := by
    rw [h.size_superpeers, hround, List.length_append]
    exact Nat.not_le.mpr (Nat.le_add_left 4 _)
  rw [area, if_neg hsize, h.superpeers, hround, List.reverse_append]
  rfl

/-- The first superpeer whose range lies in the window. -/
theorem responsible_start : r.responsible (start.forward 1) = some next := by
  have hstart := NodeSet.roundFrom_of_append hround
  have hnodup := (s.erase r.me).roundFrom_nodup start
  rw [hstart] at hnodup
  have hne : next ≠ start := fun heq =>
    (List.nodup_cons.mp hnodup).1 (heq ▸ List.mem_cons_self)
  have hnext : r.nextAfter start = some next := by
    rw [nextAfter, successorsAfter, h.superpeers, hstart]
    simp [hne]
  exact responsible_eq_some_iff.mpr (nextAfter_eq_some_iff.mp hnext).owns_forward

/-- Who gets copies when that one has failed. -/
theorem head?_targets :
    ((r.successorsAfter r.me).filter (· ≠ next)).head? = (front ++ [start]).head? := by
  have hnodup := (s.erase r.me).roundFrom_nodup r.me
  rw [hround, List.append_cons] at hnodup
  have hother : ∀ y ∈ front ++ [start], decide (y ≠ next) = true := fun y hy =>
    decide_eq_true ((List.nodup_append.mp hnodup).2.2 y hy next List.mem_cons_self)
  rw [h.successorsAfter_me, hround, List.append_cons, List.filter_append,
    List.filter_eq_self.mpr hother, List.head?_append_of_ne_nil]
  simp

end

/-! ## The backups of a superpeer

`b :: c :: d :: y :: rest` are the others in the order in which a superpeer meets them. -/

section

variable (h : r.Exact s) (hround : (s.erase r.me).roundFrom r.me = b :: c :: d :: y :: rest)

include h hround

theorem backups_eq : r.backups r.me = [b, c, d] := by
  rw [backups, h.successorsAfter_me, hround]
  rfl

/-- Who gets copies when one of the backups has failed. -/
theorem head?_next (hfailed : failed ∈ [b, c, d]) :
    ((r.successorsAfter d).filter fun target => target ≠ failed && target ≠ d).head? = some y := by
  have hnodup := (s.erase r.me).roundFrom_nodup r.me
  have hlast : (s.erase r.me).roundFrom d = d :: (y :: rest) ++ [b, c] :=
    NodeSet.roundFrom_of_append (by rw [hround]; rfl)
  rw [hround] at hnodup
  have hy : y ≠ failed ∧ y ≠ d := by
    simp only [List.nodup_cons, List.mem_cons, not_or] at hnodup hfailed
    obtain ⟨⟨-, -, hby, -⟩, ⟨-, hcy, -⟩, ⟨hdy, -⟩, -⟩ := hnodup
    refine ⟨?_, Ne.symm hdy⟩
    rcases hfailed with rfl | rfl | rfl | hnil
    · exact Ne.symm hby
    · exact Ne.symm hcy
    · exact Ne.symm hdy
    · cases hnil
  rw [successorsAfter, h.superpeers, hlast, List.cons_append, List.cons_append,
    List.filter_cons_of_neg (by simp), List.filter_cons_of_pos (by simp [hy.2]),
    List.filter_cons_of_pos (by simp [hy.1, hy.2]), List.head?_cons]

end

end Exact

end Ring

end ChunkDirectory
