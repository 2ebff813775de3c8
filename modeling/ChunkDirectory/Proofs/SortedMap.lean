import ChunkDirectory.Proofs.Ascending
import ChunkDirectory.SortedMap

/-!
# Look-ups in sorted maps

Each operation on a sorted map is described by what it does to its look-ups. The bridge between the
list and the look-ups is `get?_eq_some_iff`: keys are distinct, so an entry is found exactly if it
is there.
-/

namespace ChunkDirectory

namespace SortedMap

variable {κ β γ : Type} [Ranked κ] {m n : SortedMap κ β} {k k' : κ} {v : β}

/-- Entries of one map with the same key are equal. -/
theorem eq_of_mem_entries (h : (k, v) ∈ m.entries) {w : β} (h' : (k, w) ∈ m.entries) : v = w := by
  have hasc := m.ascending
  revert h h' hasc
  generalize m.entries = l
  intro h h' hasc
  induction l with
  | nil => cases h
  | cons e rest ih =>
    obtain ⟨hhead, htail⟩ := List.pairwise_cons.mp hasc
    rcases List.mem_cons.mp h with he | hv
    · rcases List.mem_cons.mp h' with he' | hw
      · exact congrArg Prod.snd (he.trans he'.symm)
      · have hlt := hhead (k, w) hw
        rw [← he] at hlt
        exact absurd hlt (Nat.lt_irrefl _)
    · rcases List.mem_cons.mp h' with he' | hw
      · have hlt := hhead (k, v) hv
        rw [← he'] at hlt
        exact absurd hlt (Nat.lt_irrefl _)
      · exact ih hv hw htail

/-- A look-up finds exactly what is listed. -/
theorem get?_eq_some_iff : m.get? k = some v ↔ (k, v) ∈ m.entries := by
  rw [get?, Option.map_eq_some_iff]
  constructor
  · rintro ⟨⟨k₁, v₁⟩, hfind, rfl⟩
    have hrank : rank k₁ = rank k := by simpa using List.find?_some hfind
    have hk : k₁ = k := Ranked.rank_injective hrank
    exact hk ▸ List.mem_of_find?_eq_some hfind
  · intro hmem
    cases hfind : m.entries.find? fun e => rank e.1 = rank k with
    | none =>
      have hno := List.find?_eq_none.mp hfind (k, v) hmem
      exact absurd (decide_eq_true rfl) hno
    | some e =>
      obtain ⟨k₁, v₁⟩ := e
      have hrank : rank k₁ = rank k := by simpa using List.find?_some hfind
      have hk : k₁ = k := Ranked.rank_injective hrank
      have hmem₁ := List.mem_of_find?_eq_some hfind
      rw [hk] at hmem₁
      exact ⟨(k₁, v₁), rfl, eq_of_mem_entries hmem₁ hmem⟩

theorem get?_eq_none_iff : m.get? k = none ↔ ∀ v, (k, v) ∉ m.entries := by
  constructor
  · intro hnone v hmem
    rw [get?_eq_some_iff.mpr hmem] at hnone
    cases hnone
  · intro hno
    cases hget : m.get? k with
    | none => rfl
    | some v => exact absurd (get?_eq_some_iff.mp hget) (hno v)

/-- The keys are those under which something is found. -/
theorem mem_keys_iff : k ∈ m.keys ↔ (m.get? k).isSome := by
  rw [keys, List.mem_map, Option.isSome_iff_exists]
  constructor
  · rintro ⟨⟨k₁, v⟩, hmem, rfl⟩
    exact ⟨v, get?_eq_some_iff.mpr hmem⟩
  · rintro ⟨v, hget⟩
    exact ⟨(k, v), get?_eq_some_iff.mp hget, rfl⟩

theorem keys_nodup (m : SortedMap κ β) : m.keys.Nodup :=
  List.pairwise_map.mpr (m.ascending.imp fun hlt heq => Nat.ne_of_lt hlt (congrArg rank heq))

/-- Maps with the same look-ups at a key can be exchanged there. -/
theorem get?_congr (h : ∀ v, (k, v) ∈ m.entries ↔ (k', v) ∈ n.entries) :
    m.get? k = n.get? k' := by
  apply Option.ext
  intro v
  rw [get?_eq_some_iff, get?_eq_some_iff, h v]

/-- Maps with the same entries under every key are equal. -/
theorem eq_of_get? (h : ∀ k, m.get? k = n.get? k) : m = n := by
  have hnodup (m : SortedMap κ β) : m.entries.Nodup := by
    refine m.ascending.imp fun hlt heq => ?_
    rw [heq] at hlt
    exact Nat.lt_irrefl _ hlt
  have hperm : m.entries.Perm n.entries := by
    refine (List.perm_ext_iff_of_nodup (hnodup m) (hnodup n)).mpr fun e => ?_
    rw [← get?_eq_some_iff, ← get?_eq_some_iff, h]
  refine SortedMap.ext (hperm.eq_of_pairwise (fun a b _ _ hab hba => ?_) m.ascending n.ascending)
  exact absurd hab (Nat.lt_asymm hba)

/-! ## Operations -/

@[simp] theorem get?_empty : (∅ : SortedMap κ β).get? k = none := rfl

theorem mem_insertEntry_iff {l : List (κ × β)}
    (h : l.Pairwise fun a b => rank a.1 < rank b.1) {e : κ × β} :
    e ∈ insertEntry k v l ↔ e = (k, v) ∨ (e ∈ l ∧ e.1 ≠ k) := by
  have hne : ∀ {a : κ}, a ≠ k ↔ rank a ≠ rank k :=
    not_congr ⟨congrArg rank, Ranked.rank_injective⟩
  induction l with
  | nil => simp [insertEntry]
  | cons a rest ih =>
    obtain ⟨hhead, htail⟩ := List.pairwise_cons.mp h
    simp only [insertEntry]
    split
    case isTrue hlt =>
      have hall : ∀ b ∈ a :: rest, b.1 ≠ k := by
        intro b hb
        rw [hne]
        rcases List.mem_cons.mp hb with rfl | hb
        · exact Nat.ne_of_gt hlt
        · exact Nat.ne_of_gt (Nat.lt_trans hlt (hhead b hb))
      rw [List.mem_cons]
      exact or_congr_right ⟨fun hm => ⟨hm, hall e hm⟩, And.left⟩
    case isFalse hge =>
      split
      case isTrue heq =>
        have hall : ∀ b ∈ rest, b.1 ≠ k := fun b hb =>
          hne.mpr (heq ▸ Nat.ne_of_gt (hhead b hb))
        have ha : ¬ a.1 ≠ k := fun hn => hne.mp hn heq.symm
        rw [List.mem_cons]
        refine or_congr_right ⟨fun hm => ⟨List.mem_cons_of_mem a hm, hall e hm⟩, ?_⟩
        rintro ⟨hm, hek⟩
        rcases List.mem_cons.mp hm with rfl | hm
        · exact absurd hek ha
        · exact hm
      case isFalse hneq =>
        have ha : a.1 ≠ k := hne.mpr (Ne.symm hneq)
        simp only [List.mem_cons, ih htail]
        constructor
        · rintro (rfl | rfl | ⟨hm, hek⟩)
          · exact .inr ⟨.inl rfl, ha⟩
          · exact .inl rfl
          · exact .inr ⟨.inr hm, hek⟩
        · rintro (rfl | ⟨rfl | hm, hek⟩)
          · exact .inr (.inl rfl)
          · exact .inl rfl
          · exact .inr (.inr ⟨hm, hek⟩)

theorem mem_entries_insert {e : κ × β} :
    e ∈ (m.insert k v).entries ↔ e = (k, v) ∨ (e ∈ m.entries ∧ e.1 ≠ k) :=
  mem_insertEntry_iff m.ascending

@[simp] theorem get?_insert_self : (m.insert k v).get? k = some v :=
  get?_eq_some_iff.mpr (mem_entries_insert.mpr (.inl rfl))

theorem get?_insert_of_ne (h : k' ≠ k) : (m.insert k v).get? k' = m.get? k' := by
  refine get?_congr fun w => ?_
  rw [mem_entries_insert]
  constructor
  · rintro (heq | ⟨hm, -⟩)
    · exact absurd (congrArg Prod.fst heq) h
    · exact hm
  · exact fun hm => .inr ⟨hm, h⟩

@[simp] theorem get?_modify_self (f : β → β) : (m.modify k f).get? k = (m.get? k).map f := by
  cases hget : m.get? k with
  | none => simp only [modify, hget, Option.map_none]
  | some w => simp only [modify, hget, get?_insert_self, Option.map_some]

theorem get?_modify_of_ne (h : k' ≠ k) (f : β → β) : (m.modify k f).get? k' = m.get? k' := by
  cases hget : m.get? k with
  | none => simp only [modify, hget]
  | some w => simp only [modify, hget, get?_insert_of_ne h]

@[simp] theorem get?_filter (p : κ → β → Bool) :
    (m.filter p).get? k = (m.get? k).filter (p k) := by
  apply Option.ext
  intro v
  rw [get?_eq_some_iff, Option.filter_eq_some_iff, get?_eq_some_iff]
  exact List.mem_filter

@[simp] theorem get?_erase_self : (m.erase k).get? k = none := by
  rw [erase, get?_filter, decide_eq_false fun hne => hne rfl]
  cases m.get? k <;> rfl

theorem get?_erase_of_ne (h : k' ≠ k) : (m.erase k).get? k' = m.get? k' := by
  have hrank : rank k' ≠ rank k := fun heq => h (Ranked.rank_injective heq)
  rw [erase, get?_filter, decide_eq_true hrank]
  cases m.get? k' <;> rfl

@[simp] theorem get?_mapValues (f : κ → β → γ) :
    (m.mapValues f).get? k = (m.get? k).map (f k) := by
  apply Option.ext
  intro w
  rw [get?_eq_some_iff, Option.map_eq_some_iff]
  simp only [mapValues, List.mem_map, Prod.mk.injEq]
  constructor
  · rintro ⟨⟨k₁, v⟩, hmem, rfl, rfl⟩
    exact ⟨v, get?_eq_some_iff.mpr hmem, rfl⟩
  · rintro ⟨v, hget, rfl⟩
    exact ⟨(k, v), get?_eq_some_iff.mp hget, rfl, rfl⟩

/-- A map of listed entries has no others. -/
theorem mem_of_get?_ofList {l : List (κ × β)} (h : (ofList l).get? k = some v) : (k, v) ∈ l := by
  have hfold : ∀ (l : List (κ × β)) (m : SortedMap κ β),
      (m.insertAll l).get? k = some v → (k, v) ∈ l ∨ m.get? k = some v := by
    intro l
    induction l with
    | nil => exact fun _ h => .inr h
    | cons e rest ih =>
      intro m h
      rcases ih (m.insert e.1 e.2) h with hmem | hget
      · exact .inl (List.mem_cons_of_mem e hmem)
      · by_cases hk : k = e.1
        · subst hk
          rw [get?_insert_self] at hget
          cases hget
          exact .inl List.mem_cons_self
        · rw [get?_insert_of_ne hk] at hget
          exact .inr hget
  exact (hfold l empty h).resolve_right fun h => by cases h

/-- A map of listed entries has a value at each of their keys. -/
theorem exists_get?_ofList {l : List (κ × β)} (h : (k, v) ∈ l) :
    ∃ w, (ofList l).get? k = some w := by
  have hfold : ∀ (l : List (κ × β)) (m : SortedMap κ β),
      (k, v) ∈ l ∨ (∃ w, m.get? k = some w) → ∃ w, (m.insertAll l).get? k = some w := by
    intro l
    induction l with
    | nil =>
      rintro m (hmem | hget)
      · cases hmem
      · exact hget
    | cons e rest ih =>
      intro m h
      refine ih (m.insert e.1 e.2) ?_
      by_cases hk : k = e.1
      · subst hk
        exact .inr ⟨_, get?_insert_self⟩
      · rcases h with hmem | hget
        · refine .inl ((List.mem_cons.mp hmem).resolve_left ?_)
          rintro rfl
          exact hk rfl
        · rw [get?_insert_of_ne hk]
          exact .inr hget
  exact hfold l empty (.inl h)

/-! ## The entry at or below a key -/

/-- The floor of a key is the entry with the greatest key that is not above it. -/
theorem floor?_eq_some_iff {e : κ × β} :
    m.floor? k = some e ↔ e ∈ m.entries ∧ rank e.1 ≤ rank k ∧
      ∀ x ∈ m.entries, rank x.1 ≤ rank k → rank x.1 ≤ rank e.1 := by
  have hasc := m.ascending.filter fun e => rank e.1 ≤ rank k
  rw [floor?, getLast?_eq_some_iff_of_ascending (f := fun e => rank e.1) hasc]
  simp only [List.mem_filter, decide_eq_true_eq, and_imp, and_assoc]

theorem floor?_eq_none_iff : m.floor? k = none ↔ ∀ e ∈ m.entries, rank k < rank e.1 := by
  rw [floor?, List.getLast?_eq_none_iff, List.filter_eq_nil_iff]
  simp only [decide_eq_true_eq, Nat.not_le]

/-- Maps with the same entries up to a key have the same floor there. -/
theorem floor?_congr
    (h : ∀ e : κ × β, rank e.1 ≤ rank k → (e ∈ m.entries ↔ e ∈ n.entries)) :
    m.floor? k = n.floor? k := by
  apply Option.ext
  intro e
  rw [floor?_eq_some_iff, floor?_eq_some_iff]
  constructor
  · rintro ⟨hmem, hle, hmax⟩
    exact ⟨(h e hle).mp hmem, hle, fun x hx hxle => hmax x ((h x hxle).mpr hx) hxle⟩
  · rintro ⟨hmem, hle, hmax⟩
    exact ⟨(h e hle).mpr hmem, hle, fun x hx hxle => hmax x ((h x hxle).mp hx) hxle⟩

/-! ## The entry above a key -/

theorem above?_eq_head? (m : SortedMap κ β) (k : κ) :
    m.above? k = (m.entries.filter fun e => rank k < rank e.1).head? := by
  rw [List.head?_filter]
  rfl

/-- The entry above a key is the one with the least key that exceeds it. -/
theorem above?_eq_some_iff {e : κ × β} :
    m.above? k = some e ↔ e ∈ m.entries ∧ rank k < rank e.1 ∧
      ∀ x ∈ m.entries, rank k < rank x.1 → rank e.1 ≤ rank x.1 := by
  have hasc := m.ascending.filter fun e => rank k < rank e.1
  rw [above?_eq_head?, head?_eq_some_iff_of_ascending (f := fun e => rank e.1) hasc]
  simp only [List.mem_filter, decide_eq_true_eq, and_imp, and_assoc]

theorem above?_eq_none_iff : m.above? k = none ↔ ∀ e ∈ m.entries, rank e.1 ≤ rank k := by
  rw [above?, List.find?_eq_none]
  simp only [decide_eq_true_eq, Nat.not_lt]

/-- Keys with no key of the map between them have the same neighbours in it. -/
theorem neighbours_congr (h : ∀ e ∈ m.entries, rank e.1 ≤ rank k ↔ rank e.1 ≤ rank k') :
    m.floor? k = m.floor? k' ∧ m.above? k = m.above? k' := by
  constructor
  · rw [floor?, floor?, List.filter_congr fun e he => decide_eq_decide.mpr (h e he)]
  · rw [above?_eq_head?, above?_eq_head?, List.filter_congr fun e he => decide_eq_decide.mpr ?_]
    rw [← Nat.not_le, ← Nat.not_le, h e he]

end SortedMap

end ChunkDirectory
