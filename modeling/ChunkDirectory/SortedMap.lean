/-!
# Maps kept in key order

A finite map as the list of its entries in strictly ascending key order. The order is part of the
type, so a map has one representation: maps with the same entries are equal values, and listing a
map, digesting it and sending it over the wire all see the same sequence.

Keys are compared through their rank, a natural number that determines the key.
-/

namespace ChunkDirectory

/-- Keys that are told apart and ordered by a natural number. -/
class Ranked (κ : Type) where
  rank : κ → Nat
  rank_injective : ∀ {a b : κ}, rank a = rank b → a = b

export Ranked (rank)

instance : Ranked UInt32 := ⟨UInt32.toNat, UInt32.toNat_inj.mp⟩
instance : Ranked UInt64 := ⟨UInt64.toNat, UInt64.toNat_inj.mp⟩

/-- A finite map, listed in strictly ascending key order. -/
structure SortedMap (κ : Type) [Ranked κ] (β : Type) where
  entries : List (κ × β)
  ascending : entries.Pairwise fun a b => rank a.1 < rank b.1

namespace SortedMap

variable {κ β : Type} [Ranked κ]

@[ext] theorem ext {m n : SortedMap κ β} (h : m.entries = n.entries) : m = n := by
  cases m; cases n; cases h; rfl

instance [DecidableEq κ] [DecidableEq β] : DecidableEq (SortedMap κ β) := fun m n =>
  decidable_of_iff (m.entries = n.entries) ⟨ext, congrArg entries⟩

/-- The map without entries. -/
def empty : SortedMap κ β := ⟨[], .nil⟩

instance : EmptyCollection (SortedMap κ β) := ⟨empty⟩
instance : Inhabited (SortedMap κ β) := ⟨empty⟩

/-- The number of keys. -/
def size (m : SortedMap κ β) : Nat := m.entries.length

def isEmpty (m : SortedMap κ β) : Bool := m.entries.isEmpty

/-- The keys in ascending order. -/
def keys (m : SortedMap κ β) : List κ := m.entries.map (·.1)

/-- The values in the order of their keys. -/
def values (m : SortedMap κ β) : List β := m.entries.map (·.2)

/-- The value at a key. -/
def get? (m : SortedMap κ β) (k : κ) : Option β :=
  (m.entries.find? fun e => rank e.1 = rank k).map (·.2)

/-- Whether the key has a value. -/
def contains (m : SortedMap κ β) (k : κ) : Bool := (m.get? k).isSome

/-- Puts an entry where its key belongs, replacing an entry with the same key. -/
def insertEntry (k : κ) (v : β) : List (κ × β) → List (κ × β)
  | [] => [(k, v)]
  | e :: rest =>
    if rank k < rank e.1 then (k, v) :: e :: rest
    else if rank k = rank e.1 then (k, v) :: rest
    else e :: insertEntry k v rest

theorem mem_insertEntry {k : κ} {v : β} {x : κ × β} {l : List (κ × β)}
    (h : x ∈ insertEntry k v l) : x = (k, v) ∨ x ∈ l := by
  induction l with
  | nil => simpa [insertEntry] using h
  | cons e rest ih =>
    simp only [insertEntry] at h
    split at h
    · simpa using h
    · split at h <;> grind

theorem insertEntry_ascending (k : κ) (v : β) {l : List (κ × β)}
    (h : l.Pairwise fun a b => rank a.1 < rank b.1) :
    (insertEntry k v l).Pairwise fun a b => rank a.1 < rank b.1 := by
  induction l with
  | nil => simp [insertEntry]
  | cons e rest ih =>
    obtain ⟨hhead, htail⟩ := List.pairwise_cons.mp h
    simp only [insertEntry]
    split
    case isTrue hlt =>
      refine List.pairwise_cons.mpr ⟨fun x hx => ?_, h⟩
      rcases List.mem_cons.mp hx with rfl | hx
      · exact hlt
      · exact Nat.lt_trans hlt (hhead x hx)
    case isFalse hge =>
      split
      case isTrue heq => exact List.pairwise_cons.mpr ⟨fun x hx => heq ▸ hhead x hx, htail⟩
      case isFalse hne =>
        refine List.pairwise_cons.mpr ⟨fun x hx => ?_, ih htail⟩
        rcases mem_insertEntry hx with rfl | hx
        · exact Nat.lt_of_le_of_ne (Nat.not_lt.mp hge) (Ne.symm hne)
        · exact hhead x hx

/-- Sets the value at a key. -/
def insert (m : SortedMap κ β) (k : κ) (v : β) : SortedMap κ β :=
  ⟨insertEntry k v m.entries, insertEntry_ascending k v m.ascending⟩

/-- Sets the value at each key of a list in turn, so the last value of a key stays. -/
def insertAll (m : SortedMap κ β) (l : List (κ × β)) : SortedMap κ β :=
  l.foldl (fun m e => m.insert e.1 e.2) m

/-- The map of a list of entries; of several values for a key the last one counts. -/
def ofList (l : List (κ × β)) : SortedMap κ β := empty.insertAll l

/-- A part of the entries, in the same order. -/
def restrict (m : SortedMap κ β) (l : List (κ × β)) (h : l.Sublist m.entries) : SortedMap κ β :=
  ⟨l, m.ascending.sublist h⟩

/-- The entries a test holds of. -/
def filter (m : SortedMap κ β) (p : κ → β → Bool) : SortedMap κ β :=
  m.restrict (m.entries.filter fun e => p e.1 e.2) List.filter_sublist

/-- Applies a function to every value. -/
def mapValues {γ : Type} (m : SortedMap κ β) (f : κ → β → γ) : SortedMap κ γ :=
  ⟨m.entries.map fun e => (e.1, f e.1 e.2), List.pairwise_map.mpr m.ascending⟩

/-- Removes a key. -/
def erase (m : SortedMap κ β) (k : κ) : SortedMap κ β := m.filter fun k' _ => rank k' ≠ rank k

/-- Changes the value at a key, if it has one. -/
def modify (m : SortedMap κ β) (k : κ) (f : β → β) : SortedMap κ β :=
  match m.get? k with
  | some v => m.insert k (f v)
  | none => m

/-- The entry with the greatest key not above `k`. -/
def floor? (m : SortedMap κ β) (k : κ) : Option (κ × β) :=
  (m.entries.filter fun e => rank e.1 ≤ rank k).getLast?

/-- The entry with the smallest key above `k`. -/
def above? (m : SortedMap κ β) (k : κ) : Option (κ × β) :=
  m.entries.find? fun e => rank k < rank e.1

end SortedMap

end ChunkDirectory
