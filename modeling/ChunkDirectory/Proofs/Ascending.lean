/-!
# Lists in ascending order

Elements of a list ascend by a number. The ends of the list are then its extreme elements
(`head?_eq_some_iff_of_ascending`, `getLast?_eq_some_iff_of_ascending`), and places in it are
questions of how many elements are less (`mem_take_iff_of_ascending`,
`countP_le_iff_of_ascending`).
-/

namespace ChunkDirectory

variable {α : Type} {f : α → Nat} {l : List α} {a x : α} {k : Nat}

/-! ## Ends -/

/-- The first element of a list in ascending order is its least one. -/
theorem head?_eq_some_iff_of_ascending (h : l.Pairwise fun a b => f a < f b) :
    l.head? = some x ↔ x ∈ l ∧ ∀ y ∈ l, f x ≤ f y := by
  cases l with
  | nil => simp
  | cons a rest =>
    obtain ⟨hhead, -⟩ := List.pairwise_cons.mp h
    constructor
    · intro hx
      cases hx
      refine ⟨List.mem_cons_self, fun y hy => ?_⟩
      rcases List.mem_cons.mp hy with rfl | hy
      · exact Nat.le_refl _
      · exact Nat.le_of_lt (hhead y hy)
    · rintro ⟨hx, hmin⟩
      rcases List.mem_cons.mp hx with rfl | hx
      · rfl
      · have hle := hmin a List.mem_cons_self
        have hlt := hhead x hx
        exact absurd hle (Nat.not_le.mpr hlt)

/-- The last element of a list in ascending order is its greatest one. -/
theorem getLast?_eq_some_iff_of_ascending (h : l.Pairwise fun a b => f a < f b) :
    l.getLast? = some x ↔ x ∈ l ∧ ∀ y ∈ l, f y ≤ f x := by
  induction l with
  | nil => simp
  | cons a rest ih =>
    obtain ⟨hhead, htail⟩ := List.pairwise_cons.mp h
    cases rest with
    | nil =>
      simp only [List.getLast?_singleton, Option.some.injEq, List.mem_singleton]
      constructor
      · rintro rfl
        exact ⟨rfl, fun y hy => hy ▸ Nat.le_refl _⟩
      · rintro ⟨rfl, -⟩
        rfl
    | cons b rest =>
      rw [List.getLast?_cons_cons, ih htail]
      constructor
      · rintro ⟨hx, hmax⟩
        refine ⟨List.mem_cons_of_mem a hx, fun y hy => ?_⟩
        rcases List.mem_cons.mp hy with rfl | hy
        · exact Nat.le_of_lt (hhead x hx)
        · exact hmax y hy
      · rintro ⟨hx, hmax⟩
        refine ⟨?_, fun y hy => hmax y (List.mem_cons_of_mem a hy)⟩
        rcases List.mem_cons.mp hx with rfl | hx
        · have hle := hmax b (by simp)
          have hlt := hhead b List.mem_cons_self
          exact absurd hle (Nat.not_le.mpr hlt)
        · exact hx

/-! ## Ranks -/

/-- An element stands among the first `k` exactly if fewer than `k` are less. -/
theorem mem_take_iff_of_ascending (h : l.Pairwise fun a b => f a < f b) (ha : a ∈ l) :
    a ∈ l.take k ↔ l.countP (f · < f a) < k := by
  obtain ⟨before, after, rfl⟩ := List.append_of_mem ha
  obtain ⟨-, hrest, hcross⟩ := List.pairwise_append.mp h
  have hbefore : ∀ x ∈ before, f x < f a := fun x hx => hcross x hx a List.mem_cons_self
  have hafter : ∀ x ∈ after, f a < f x := (List.pairwise_cons.mp hrest).1
  have hnot : a ∉ before := fun hmem => Nat.lt_irrefl _ (hbefore a hmem)
  have hcount : (before ++ a :: after).countP (f · < f a) = before.length := by
    rw [List.countP_append, List.countP_cons_of_neg (by simp),
      List.countP_eq_length.mpr fun x hx => decide_eq_true (hbefore x hx),
      List.countP_eq_zero.mpr fun x hx => by simpa using Nat.le_of_lt (hafter x hx), Nat.add_zero]
  rw [hcount, List.take_append, List.mem_append,
    or_iff_right fun hmem => hnot (List.mem_of_mem_take hmem)]
  constructor
  · intro hmem
    have hpos := List.length_pos_of_mem hmem
    rw [List.length_take] at hpos
    omega
  · intro hlt
    obtain ⟨more, hmore⟩ := Nat.exists_eq_add_of_lt hlt
    rw [show k - before.length = more + 1 by omega, List.take_succ_cons]
    exact List.mem_cons_self

/-- At most `k` elements are at or below a bound that the next one exceeds. -/
theorem countP_le_iff_of_ascending (h : l.Pairwise fun a b => f a < f b) (ha : l[k]? = some a)
    (bound : Nat) : l.countP (f · ≤ bound) ≤ k ↔ bound < f a := by
  obtain ⟨hk, rfl⟩ := List.getElem?_eq_some_iff.mp ha
  have hsplit : l = l.take k ++ l[k] :: l.drop (k + 1) := by
    rw [List.getElem_cons_drop, List.take_append_drop]
  have hlength : (l.take k).length = k := List.length_take_of_le (Nat.le_of_lt hk)
  rw [hsplit] at h
  obtain ⟨-, hrest, hcross⟩ := List.pairwise_append.mp h
  have hafter : ∀ x ∈ l.drop (k + 1), f l[k] < f x := (List.pairwise_cons.mp hrest).1
  have hcount : l.countP (f · ≤ bound) =
      (l.take k).countP (f · ≤ bound) + (l[k] :: l.drop (k + 1)).countP (f · ≤ bound) := by
    rw [← List.countP_append, ← hsplit]
  rw [hcount]
  constructor
  · intro hle
    apply Nat.lt_of_not_le
    intro hbound
    have hall : (l.take k).countP (f · ≤ bound) = k := by
      rw [List.countP_eq_length.mpr fun x hx => ?_, hlength]
      exact decide_eq_true
        (Nat.le_of_lt (Nat.lt_of_lt_of_le (hcross x hx _ List.mem_cons_self) hbound))
    have hpos : 0 < (l[k] :: l.drop (k + 1)).countP (f · ≤ bound) :=
      List.countP_pos_iff.mpr ⟨l[k], List.mem_cons_self, decide_eq_true hbound⟩
    omega
  · intro hlt
    have hnone : (l[k] :: l.drop (k + 1)).countP (f · ≤ bound) = 0 := by
      refine List.countP_eq_zero.mpr fun x hx => ?_
      rcases List.mem_cons.mp hx with rfl | hx
      · simpa using hlt
      · simpa using Nat.lt_trans hlt (hafter x hx)
    rw [hnone]
    exact Nat.le_trans List.countP_le_length (Nat.le_of_eq hlength)

end ChunkDirectory
