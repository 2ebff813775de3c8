import Mathlib.Algebra.Ring.Nat
import Mathlib.Data.List.Sort
import ChunkDirectory.Proofs.Directory.Transfer
import ChunkDirectory.Wire.Codec

/-!
# Codecs that read back what they write

A codec is faithful on some values if it reads back what it writes of them, whatever follows
(`Codec.Faithful`). The codecs for single bytes and words are faithful on everything; pairs,
optional values, views, sequences and maps are as faithful as their parts, except that a sequence
must be short enough for its length to be written in eight bytes.
-/

namespace ChunkDirectory

/-- There are at most `bound` different numbers below `bound`. -/
theorem length_le_of_nodup {l : List Nat} {bound : Nat} (hnodup : l.Nodup)
    (h : ∀ x ∈ l, x < bound) : l.length ≤ bound := by
  have hsubset : l ⊆ List.range bound := fun x hx => List.mem_range.mpr (h x hx)
  have hle := (List.subperm_of_subset hnodup hsubset).length_le
  rwa [List.length_range] at hle

namespace SortedMap

variable {κ β : Type} [Ranked κ]

/-- To set a value again changes nothing. -/
@[simp] theorem insert_insert (m : SortedMap κ β) (k : κ) (v : β) :
    (m.insert k v).insert k v = m.insert k v := by
  refine eq_of_get? fun k' => ?_
  by_cases hk : k' = k
  · subst hk
    rw [get?_insert_self, get?_insert_self]
  · rw [get?_insert_of_ne hk]

/-- A map is built from its own entries. -/
theorem ofList_entries (m : SortedMap κ β) : ofList m.entries = m :=
  eq_of_get? fun k => (get?_insertAll_entries empty m k).trans (Option.or_none)

/-- There are no more entries than ranks. -/
theorem size_le {bound : Nat} (m : SortedMap κ β) (h : ∀ k : κ, rank k < bound) :
    m.size ≤ bound := by
  have hnodup : (m.entries.map fun e => rank e.1).Nodup :=
    (List.pairwise_map.mpr m.ascending).imp fun hlt => Nat.ne_of_lt hlt
  have hle := length_le_of_nodup hnodup fun x hx => by
    obtain ⟨e, -, rfl⟩ := List.mem_map.mp hx
    exact h e.1
  rwa [List.length_map] at hle

end SortedMap

namespace Wire

variable {α β γ κ : Type} {P : α → Prop} {Q : β → Prop}

/-- A reader that goes on with what was read. -/
theorem Reader.bind_of_read {r : Reader α} {f : α → Reader β} {a : α} {bytes rest : List UInt8}
    (h : r bytes = some (a, rest)) : (r >>= f) bytes = f a rest := by
  show Reader.bind r f bytes = _
  rw [Reader.bind, h]

namespace Codec

variable {a : Codec α} {b : Codec β}

/-- What the codec writes of a fitting value it reads back, whatever follows. -/
def Faithful (c : Codec α) (fits : α → Prop) : Prop :=
  ∀ v, fits v → ∀ rest, c.read (c.write v ++ rest) = some (v, rest)

theorem Faithful.mono {fits : α → Prop} (h : a.Faithful P) (hfits : ∀ v, fits v → P v) :
    a.Faithful fits := fun v hv rest => h v (hfits v hv) rest

theorem Faithful.write_inj (h : a.Faithful P) {v w : α} (hv : P v) (hw : P w) :
    a.write v = a.write w ↔ v = w := by
  constructor
  · intro heq
    have hread := h v hv []
    rw [heq, h w hw []] at hread
    cases hread
    rfl
  · exact congrArg a.write

theorem faithful_byte : byte.Faithful fun _ => True := fun _ _ _ => rfl

theorem Faithful.pair (ha : a.Faithful P) (hb : b.Faithful Q) :
    (pair a b).Faithful fun v => P v.1 ∧ Q v.2 := by
  rintro ⟨x, y⟩ ⟨hx, hy⟩ rest
  show (do let x ← a.read; let y ← b.read; return (x, y) : Reader (α × β))
    ((a.write x ++ b.write y) ++ rest) = _
  rw [List.append_assoc, Reader.bind_of_read (ha x hx _), Reader.bind_of_read (hb y hy _)]
  rfl

theorem Faithful.via {view : β → α} {build : α → β} (ha : a.Faithful P)
    (h : ∀ v, build (view v) = v) : (a.via view build).Faithful fun v => P (view v) := by
  intro v hv rest
  show (do return build (← a.read) : Reader β) (a.write (view v) ++ rest) = _
  rw [Reader.bind_of_read (ha _ hv rest), h]
  rfl

/-- A number is put together from its upper and its lower half. -/
theorem or_halves {k n : Nat} (h : n < 2 ^ (k + k)) :
    (n >>> k % 2 ^ k) <<< k % 2 ^ (k + k) ||| n % 2 ^ k = n := by
  have hpos : 0 < 2 ^ k := Nat.two_pow_pos k
  have hhigh : n / 2 ^ k < 2 ^ k := by
    rw [Nat.div_lt_iff_lt_mul hpos, ← Nat.pow_add]
    exact h
  have hsum : n / 2 ^ k * 2 ^ k + n % 2 ^ k = n := by
    rw [Nat.mul_comm]
    exact Nat.div_add_mod n (2 ^ k)
  have hupper : n / 2 ^ k * 2 ^ k < 2 ^ (k + k) := Nat.lt_of_le_of_lt (Nat.div_mul_le_self n _) h
  rw [Nat.shiftRight_eq_div_pow, Nat.mod_eq_of_lt hhigh, Nat.shiftLeft_eq, Nat.mod_eq_of_lt hupper,
    ← Nat.shiftLeft_eq, ← Nat.shiftLeft_add_eq_or_of_lt (Nat.mod_lt n hpos), Nat.shiftLeft_eq, hsum]

/-- A codec that writes the lower half of a number, then the upper one. -/
theorem Faithful.halves {half : Codec β} {view : α → β × β} {build : β × β → α}
    (hhalf : half.Faithful fun _ => True) (h : ∀ n, build (view n) = n) :
    ((Codec.pair half half).via view build).Faithful fun _ => True :=
  ((hhalf.pair hhalf).via h).mono fun _ _ => ⟨trivial, trivial⟩

theorem faithful_word16 : word16.Faithful fun _ => True :=
  faithful_byte.halves fun n : UInt16 => UInt16.toNat_inj.mp (or_halves (k := 8) n.toNat_lt)

theorem faithful_word32 : word32.Faithful fun _ => True :=
  faithful_word16.halves fun n : UInt32 => UInt32.toNat_inj.mp (or_halves (k := 16) n.toNat_lt)

theorem faithful_word64 : word64.Faithful fun _ => True :=
  faithful_word32.halves fun n : UInt64 => UInt64.toNat_inj.mp (or_halves (k := 32) n.toNat_lt)

theorem faithful_bool : bool.Faithful fun _ => True := by
  intro v _ rest
  cases v <;> rfl

theorem Faithful.option (ha : a.Faithful P) :
    (option a).Faithful fun v => ∀ x, v = some x → P x := by
  intro v hv rest
  cases v with
  | none => rfl
  | some x =>
    show (do return some (← a.read) : Reader (Option α)) (a.write x ++ rest) = _
    rw [Reader.bind_of_read (ha x (hv x rfl) rest)]
    rfl

theorem Faithful.readMany (ha : a.Faithful P) {l : List α} (hl : ∀ x ∈ l, P x)
    (rest : List UInt8) :
    Codec.readMany a l.length (l.flatMap a.write ++ rest) = some (l, rest) := by
  induction l with
  | nil => rfl
  | cons x l ih =>
    show (do
        let v ← a.read
        let rest ← Codec.readMany a l.length
        return v :: rest : Reader (List α))
      ((a.write x ++ l.flatMap a.write) ++ rest) = _
    have hrest := ih fun y hy => hl y (List.mem_cons_of_mem x hy)
    rw [List.append_assoc, Reader.bind_of_read (ha x (hl x List.mem_cons_self) _),
      Reader.bind_of_read hrest]
    rfl

theorem Faithful.list (ha : a.Faithful P) :
    (list a).Faithful fun l => l.length < 2 ^ 64 ∧ ∀ x ∈ l, P x := by
  rintro l ⟨hlength, hl⟩ rest
  have hcount : (UInt64.ofNat l.length).toNat = l.length := UInt64.toNat_ofNat_of_lt hlength
  show (do let n ← word64.read; Codec.readMany a n.toNat : Reader (List α))
    ((word64.write (UInt64.ofNat l.length) ++ l.flatMap a.write) ++ rest) = _
  rw [List.append_assoc, Reader.bind_of_read (faithful_word64 _ trivial _), hcount]
  exact ha.readMany hl rest

theorem Faithful.map [Ranked κ] {key : Codec κ} {value : Codec β} {K : κ → Prop}
    (hkey : key.Faithful K) (hvalue : value.Faithful Q) :
    (map key value).Faithful fun m => m.size < 2 ^ 64 ∧ ∀ e ∈ m.entries, K e.1 ∧ Q e.2 :=
  (hkey.pair hvalue).list.via SortedMap.ofList_entries

end Codec

end Wire

end ChunkDirectory
