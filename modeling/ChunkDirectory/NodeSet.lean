import ChunkDirectory.NodeId

/-!
# Sets of identifiers

The superpeers and peers a node knows, listed in strictly ascending order. Questions about
neighbours are questions about one sequence: `roundFrom s id`, the members in ring order, starting
at the first one that is not below `id` and wrapping once past the largest position.
-/

namespace ChunkDirectory

/-- A finite set of identifiers, listed in strictly ascending order. -/
structure NodeSet where
  toList : List NodeId
  ascending : toList.Pairwise (· < ·)

namespace NodeSet

@[ext] theorem ext {s t : NodeSet} (h : s.toList = t.toList) : s = t := by
  cases s; cases t; cases h; rfl

instance : DecidableEq NodeSet := fun s t =>
  decidable_of_iff (s.toList = t.toList) ⟨ext, congrArg toList⟩

/-- The set without members. -/
def empty : NodeSet := ⟨[], .nil⟩

instance : EmptyCollection NodeSet := ⟨empty⟩
instance : Inhabited NodeSet := ⟨empty⟩

/-- The number of members. -/
def size (s : NodeSet) : Nat := s.toList.length

def isEmpty (s : NodeSet) : Bool := s.toList.isEmpty

instance : Membership NodeId NodeSet := ⟨fun s id => id ∈ s.toList⟩

instance (s : NodeSet) (id : NodeId) : Decidable (id ∈ s) :=
  inferInstanceAs (Decidable (id ∈ s.toList))

/-- Whether `id` is a member. -/
def contains (s : NodeSet) (id : NodeId) : Bool := id ∈ s

/-- Puts an identifier where it belongs in an ascending list, unless it is there. -/
def insertId (id : NodeId) : List NodeId → List NodeId
  | [] => [id]
  | x :: rest =>
    if id < x then id :: x :: rest
    else if id = x then x :: rest
    else x :: insertId id rest

theorem mem_insertId {id x : NodeId} {l : List NodeId} :
    x ∈ insertId id l ↔ x = id ∨ x ∈ l := by
  induction l with
  | nil => simp [insertId]
  | cons y rest ih =>
    simp only [insertId]
    split
    · simp
    · split <;> grind

theorem insertId_ascending (id : NodeId) {l : List NodeId} (h : l.Pairwise (· < ·)) :
    (insertId id l).Pairwise (· < ·) := by
  induction l with
  | nil => simp [insertId]
  | cons y rest ih =>
    obtain ⟨hhead, htail⟩ := List.pairwise_cons.mp h
    simp only [insertId]
    split
    case isTrue hlt =>
      refine List.pairwise_cons.mpr ⟨fun x hx => ?_, h⟩
      rcases List.mem_cons.mp hx with rfl | hx
      · exact hlt
      · exact NodeId.lt_trans hlt (hhead x hx)
    case isFalse hge =>
      split
      case isTrue => exact h
      case isFalse hne =>
        refine List.pairwise_cons.mpr ⟨fun x hx => ?_, ih htail⟩
        rcases mem_insertId.mp hx with rfl | hx
        · exact (NodeId.lt_or_gt_of_ne hne).resolve_left hge
        · exact hhead x hx

/-- Adds a member. -/
def insert (s : NodeSet) (id : NodeId) : NodeSet :=
  ⟨insertId id s.toList, insertId_ascending id s.ascending⟩

/-- The members a test holds of. -/
def filter (s : NodeSet) (p : NodeId → Bool) : NodeSet :=
  ⟨s.toList.filter p, s.ascending.filter p⟩

/-- Removes a member. -/
def erase (s : NodeSet) (id : NodeId) : NodeSet := s.filter (· ≠ id)

/-- The set of the identifiers in a list. -/
def ofList (l : List NodeId) : NodeSet := l.foldl insert empty

/-- The members in ring order, starting at the first one not below `id`. -/
def roundFrom (s : NodeSet) (id : NodeId) : List NodeId :=
  s.toList.filter (id ≤ ·) ++ s.toList.filter (· < id)

@[simp] theorem mem_insert {s : NodeSet} {id x : NodeId} : x ∈ s.insert id ↔ x = id ∨ x ∈ s :=
  mem_insertId

@[simp] theorem mem_ofList {l : List NodeId} {x : NodeId} : x ∈ ofList l ↔ x ∈ l := by
  have hfold : ∀ s : NodeSet, x ∈ l.foldl insert s ↔ x ∈ l ∨ x ∈ s := by
    induction l with
    | nil => intro s; simp
    | cons y rest ih =>
      intro s
      rw [List.foldl_cons, ih, mem_insert, List.mem_cons]
      grind
  have hnone : x ∉ empty := fun h => by cases h
  rw [ofList, hfold, or_iff_left hnone]

@[simp] theorem mem_erase {s : NodeSet} {id x : NodeId} : x ∈ s.erase id ↔ x ∈ s ∧ x ≠ id := by
  show x ∈ s.toList.filter (· ≠ id) ↔ _
  rw [List.mem_filter, decide_eq_true_iff]
  exact Iff.rfl

theorem mem_roundFrom {s : NodeSet} {id x : NodeId} : x ∈ s.roundFrom id ↔ x ∈ s := by
  simp only [roundFrom, List.mem_append, List.mem_filter, decide_eq_true_eq]
  constructor
  · rintro (⟨h, -⟩ | ⟨h, -⟩) <;> exact h
  · intro h
    by_cases hlt : x < id
    · exact .inr ⟨h, hlt⟩
    · exact .inl ⟨h, NodeId.not_lt.mp hlt⟩

end NodeSet

end ChunkDirectory
